import SocketAcl.Proof.ChatText
import SocketAcl.Proof.Progress
import SocketAcl.Proof.Tearing

/-!
# A chat message from click to chat line

A member clicks Send Chat; its handler reads the packet, as much at a time as its buffer holds, and comes
back to its read, while other fibers run in between.

* `Phase`: how far the handler is, told by the events of its own.
* `taken_run`: what the sockets took from a handler, and what is left of the write it is at, is what it wrote.
* `chat_delivered`: one request is dispatched and every member's client adds one line with the whole
  text exactly where the packet fits the buffer and ends in front of a NUL; and the handler can come back.
-/

namespace SocketAcl

open Client

/-! ## What a handler reads and does -/

/-- What fiber `f` reads in these steps. -/
def readsOf (f : ConnId) (es : List Label) : List (Stack × Bytes) := es.filterMap fun
  | .act g (.recv stack data) => if g = f then some (stack, data) else none
  | _ => none

namespace Event

/-- A request that `f` dispatched. -/
def requestOf (f : ConnId) : Event → Bool
  | .recv g _ _ => decide (g = f)
  | _ => false

/-- The requests, broadcasts and writes of fiber `f`. -/
def ofFiber (f : ConnId) : Event → Bool
  | .recv g _ _ => decide (g = f)
  | .broadcast g _ _ _ _ => decide (g = f)
  | .write g _ _ _ => decide (g = f)
  | _ => false

/-- What `f` writes to `c`. -/
def writtenTo (f c : ConnId) : Event → Option Bytes
  | .write g _ dest data => if g = f ∧ dest = c then some data else none
  | _ => none

end Event

/-- The events between two states of a run. -/
def Server.since (s t : Server) : List Event := t.log.drop s.log.length

/-- The client of `f` stays, and no write of `f` fails or goes to a deleted connection. -/
def Server.Steady (f : ConnId) (s : Server) : Label → Prop
  | .act g .eof => g ≠ f
  | .act g .fail => g ≠ f
  | .act g (.send _) => g = f → ∀ dest rest todo k, s.pc g = .send dest rest todo k → s.pc dest ≠ .done
  | _ => True

/-- **A chat is sent** by member `u` of room `r` over connection `f`: in a run that starts at a read of its
handler, the handler is handed the packet of the click and nothing else, each read returning as many bytes as the
buffer holds; what it writes arrives; and it is still a member when it broadcasts. -/
structure ChatSent (s t : Server) (es : List Label) (f : ConnId) (r : Int32) (u : Bytes)
    (m : CsString) : Prop where
  no_nul : 0 ∉ m
  pos : 1 ≤ (UTF8.getBytes m).length
  le : (UTF8.getBytes m).length ≤ 255
  name : u.length ≤ 31
  session : s.ses f = ⟨u, r⟩
  seat : s.rooms.cell r u = some f
  begins : s.pc f = .read
  run : chatServer.run s es = some t
  reads : ∃ packet, btnSendChatClick m = some packet ∧ Filled 256 packet ((readsOf f es).map Prod.snd)
  steady : chatServer.AllSteps (Server.Steady f) s es
  member : ∀ buffer members, .broadcast f .chat r buffer members ∈ s.since t →
    (members.getD ∅).lookup u = some f

variable {s t : Server} {f g c : ConnId} {a : Act} {e : Effect} {r : Int32} {u : Bytes} {m : CsString}
  {es : List Label} {C : Server → Label → Prop}

/-! ## How far the handler is -/

section

variable (f : ConnId) (r : Int32) (p : Stack × Bytes) (buffer : Bytes)

/-- The handler's `Broadcast`. -/
abbrev chatCall : Call := .broadcast .chat r buffer

/-- The events of a handler that has read its request and broadcast it to these members, writing this much. -/
def answered (members : Option Room) (written : List (ConnId × Bytes)) : List Event :=
  .recv f (dispatch p.1 p.2) (.lock (chatCall r buffer) [] .loop) :: .broadcast f .chat r buffer members ::
    written.map fun w => .write f (some (chatCall r buffer)) w.1 w.2

/-- A program point of the handler with these writes still to be issued. -/
inductive AtWrites (todo : List (ConnId × Bytes)) : Control → Prop
  | write : AtWrites todo (.write todo (.unlock (chatCall r buffer) [] .loop))
  | send {dest : ConnId} {rest : Bytes} :
      AtWrites todo (.send dest rest todo (.unlock (chatCall r buffer) [] .loop))
  | unlock (h : todo = []) : AtWrites todo (.unlock (chatCall r buffer) [] .loop)
  | read (h : todo = []) : AtWrites todo .read

/-- **The phases of a handler** that has a chat request to read: what it has still to read, and its
own events. -/
inductive Phase (rooms : Rooms) (u : Bytes) : Fiber → List (Stack × Bytes) → List Event → Prop
  | waiting : Phase rooms u ⟨⟨u, r⟩, .read⟩ [p] []
  | ignored {ses : Session} (hr : r = -1) : Phase rooms u ⟨ses, .read⟩ [] [.recv f (dispatch p.1 p.2) .read]
  | called {ses : Session} (hr : r ≠ -1) : Phase rooms u ⟨ses, .lock (chatCall r buffer) [] .loop⟩ []
      [.recv f (dispatch p.1 p.2) (.lock (chatCall r buffer) [] .loop)]
  | entered {ses : Session} (hr : r ≠ -1) : Phase rooms u ⟨ses, .body (chatCall r buffer) [] .loop⟩ []
      (answered f r p buffer (rooms.lookup r) [])
  | told {ses : Session} {members : Option Room} {order : List (Bytes × ConnId)}
      {written todo : List (ConnId × Bytes)} {x : Control} (hr : r ≠ -1)
      (horder : Row.Enumerates order (members.getD ∅)) (hlen : order.length ≤ 2)
      (hsplit : (order.map fun m => (m.2, buffer)) = written ++ todo) (hx : AtWrites r buffer todo x) :
      Phase rooms u ⟨ses, x⟩ [] (answered f r p buffer members written)

end

theorem answered_append (p : Stack × Bytes) (buffer : Bytes) (members : Option Room)
    (written more : List (ConnId × Bytes)) :
    answered f r p buffer members written ++ (more.map fun w => .write f (some (chatCall r buffer)) w.1 w.2) =
      answered f r p buffer members (written ++ more) := by
  unfold answered
  rw [List.map_append]
  rfl

theorem readsOf_recv (f : ConnId) (stack : Stack) (data : Bytes) (es : List Label) :
    readsOf f (.act f (.recv stack data) :: es) = (stack, data) :: readsOf f es := by
  simp [readsOf]

theorem readsOf_quiet {l : Label} (h : ∀ stack data, l ≠ .act f (.recv stack data)) (es : List Label) :
    readsOf f (l :: es) = readsOf f es := by
  unfold readsOf
  refine List.filterMap_cons_none ?_
  cases l with
  | accept => rfl
  | act g a =>
    cases a with
    | recv stack data =>
      refine if_neg fun hg => h stack data ?_
      rw [hg]
    | _ => rfl

variable {p : Stack × Bytes} {buffer : Bytes} {message : Chars 256} {pending : List (Stack × Bytes)}
  {own : List Event} {todo : List (ConnId × Bytes)}

/-- A fiber that is switched out stays as it is. -/
theorem Moves.suspended (hm : Moves s f .suspend e) :
    e.fiber = s.fibers f ∧ e.rooms = s.rooms ∧ e.events = [] := by
  cases hm with
  | suspend hr hb => exact ⟨rfl, rfl, rfl⟩

/-- A handler that has nothing to read does not read. -/
theorem not_recv_of_reads (h : readsOf f (.act f a :: es) = []) (stack : Stack) (data : Bytes) :
    a ≠ .recv stack data := by
  rintro rfl
  rw [readsOf_recv] at h
  cases h

/-- **A step among the writes** issues some of those to be issued. -/
theorem Moves.atWrites (hm : Moves s f a e) (heof : a ≠ .eof) (hrecv : ∀ stack data, a ≠ .recv stack data)
    (hat : AtWrites r buffer todo (s.pc f)) :
    ∃ more todo', todo = more ++ todo' ∧ AtWrites r buffer todo' e.fiber.control ∧
      e.events.filter (Event.ofFiber f) = more.map fun w => .write f (some (chatCall r buffer)) w.1 w.2 := by
  by_cases ha : a = .suspend
  · subst ha
    obtain ⟨hfiber, -, hevents⟩ := hm.suspended
    refine ⟨[], todo, rfl, ?_, by rw [hevents]; rfl⟩
    rw [hfiber]
    exact hat
  generalize hx : s.pc f = x at hat
  cases hat with
  | write =>
    cases hm with
    | @write dest data rest k hc =>
      obtain ⟨rfl, rfl⟩ := Control.write.inj (hc.symm.trans hx)
      refine ⟨[(dest, data)], rest, rfl, .send, ?_⟩
      exact List.filter_cons_of_pos (decide_eq_true rfl)
    | written hc =>
      obtain ⟨rfl, hk⟩ := Control.write.inj (hc.symm.trans hx)
      obtain ⟨rfl, rfl, rfl⟩ := After.unlock.inj hk
      exact ⟨[], [], rfl, .unlock rfl, rfl⟩
    | suspend hr hb => exact absurd rfl ha
    | _ => simp_all
  | @send dest rest =>
    cases hm with
    | sendPart hc h0 hn hb =>
      obtain ⟨rfl, rfl, rfl, rfl⟩ := Control.send.inj (hc.symm.trans hx)
      exact ⟨[], _, rfl, .send, rfl⟩
    | sendAll hc h0 hb =>
      obtain ⟨rfl, rfl, rfl, rfl⟩ := Control.send.inj (hc.symm.trans hx)
      exact ⟨[], _, rfl, .write, rfl⟩
    | sendFail hc =>
      obtain ⟨rfl, rfl, rfl, rfl⟩ := Control.send.inj (hc.symm.trans hx)
      exact ⟨[], _, rfl, .write, rfl⟩
    | suspend hr hb => exact absurd rfl ha
    | _ => simp_all
  | unlock hdone =>
    cases hm with
    | unlock hc =>
      obtain ⟨rfl, rfl, rfl⟩ := Control.unlock.inj (hc.symm.trans hx)
      exact ⟨[], todo, rfl, .read hdone, rfl⟩
    | suspend hr hb => exact absurd rfl ha
    | _ => simp_all
  | read hdone =>
    cases hm with
    | recv hc h0 h256 => exact absurd rfl (hrecv _ _)
    | eof hc => exact absurd rfl heof
    | suspend hr hb => exact absurd rfl ha
    | _ => simp_all

/-- **A step of the handler** leads from phase to phase. -/
theorem Moves.phase (hdispatch : dispatch p.1 p.2 = .roomChat message)
    (hbuffer : buffer = chatBuffer (cstr (message.toList ++ p.1.behindChat)) u) (hu : u ≠ [])
    (hsize : ∀ r, (s.rooms.row r).size ≤ 2) (hm : Moves s f a e) (heof : a ≠ .eof)
    (hP : Phase f r p buffer s.rooms u (s.fibers f) pending own)
    (hreads : readsOf f (.act f a :: es) = pending) :
    Phase f r p buffer e.rooms u e.fiber (readsOf f es) (own ++ e.events.filter (Event.ofFiber f)) := by
  have hquiet : (∀ stack data, a ≠ .recv stack data) → readsOf f es = pending := by
    intro hrecv
    rw [← hreads, readsOf_quiet fun stack data hl => hrecv stack data (Label.act.inj hl).2]
  by_cases ha : a = .suspend
  · subst ha
    obtain ⟨hfiber, hrooms, hevents⟩ := hm.suspended
    rw [hfiber, hrooms, hevents, List.filter_nil, List.append_nil, hquiet (by rintro _ _ ⟨⟩)]
    exact hP
  generalize hx : s.fibers f = x at hP
  have hpc : s.pc f = x.control := by rw [Server.pc, hx]
  have hses : s.ses f = x.session := by rw [Server.ses, hx]
  cases hP with
  | waiting =>
    cases hm with
    | @recv stack data hc h0 h256 =>
      rw [readsOf_recv] at hreads
      obtain ⟨rfl, hrest⟩ := List.cons.inj hreads
      rw [hrest]
      simp only [List.nil_append, List.filter_cons, Event.ofFiber, decide_true, if_true, List.filter_nil]
      -- the guard of the chat branch: a room other than -1, and a user ID
      by_cases hr : r = -1
      · have hhandle : (s.ses f).handle stack (dispatch stack data) = (s.ses f, .read) := by
          rw [hses, hdispatch]
          exact if_neg fun h => h.1 hr
        rw [hhandle]
        exact .ignored hr
      · have hhandle : (s.ses f).handle stack (dispatch stack data) =
            (s.ses f, .lock (chatCall r buffer) [] .loop) := by
          rw [hses, hdispatch, hbuffer]
          exact if_pos ⟨hr, hu⟩
        rw [hhandle]
        exact .called hr
    | eof hc => exact absurd rfl heof
    | suspend hr hb => exact absurd rfl ha
    | _ => simp_all
  | ignored hr =>
    cases hm with
    | recv hc h0 h256 => exact absurd rfl (not_recv_of_reads hreads _ _)
    | eof hc => exact absurd rfl heof
    | suspend hr hb => exact absurd rfl ha
    | _ => simp_all
  | called hneg =>
    rw [hquiet (not_recv_of_reads hreads)]
    cases hm with
    | lock hc ho =>
      obtain ⟨rfl, rfl, rfl⟩ := Control.lock.inj (hc.symm.trans hpc)
      simp only [Server.goto, Server.acquired, List.filter_cons, Event.ofFiber, decide_true, if_true,
        List.filter_nil]
      exact .entered hneg
    | suspend hr hb => exact absurd rfl ha
    | _ => simp_all
  | entered hneg =>
    rw [hquiet (not_recv_of_reads hreads)]
    cases hm with
    | @broadcastMissing site r' buffer' next tail order type hc hr =>
      obtain ⟨hcall, rfl, rfl⟩ := Control.body.inj (hc.symm.trans hpc)
      obtain ⟨rfl, rfl, rfl⟩ := Call.broadcast.inj hcall
      -- no such room: `Broadcast` returns
      have horder : Row.Enumerates [] ((s.rooms.lookup r').getD ∅) := by
        rw [Finmap.lookup_eq_none.2 hr]
        rfl
      simp only [Server.goto, List.filter_nil, List.append_nil]
      exact .told hneg horder (by decide) rfl (.unlock rfl)
    | @broadcast site r' buffer' next tail order type hc hr he =>
      obtain ⟨hcall, rfl, rfl⟩ := Control.body.inj (hc.symm.trans hpc)
      obtain ⟨rfl, rfl, rfl⟩ := Call.broadcast.inj hcall
      simp only [Server.goto, List.filter_nil, List.append_nil]
      exact .told hneg he (he.length.trans_le (hsize r')) rfl .write
    | suspend hr hb => exact absurd rfl ha
    | _ => simp_all
  | told hneg horder hlen hsplit hat =>
    have hrecv := not_recv_of_reads hreads
    obtain ⟨more, todo', htodo, hat', hevents⟩ := hm.atWrites heof hrecv (by rw [hpc]; exact hat)
    rw [hevents, answered_append, hquiet hrecv]
    exact .told hneg horder hlen (by rw [hsplit, htodo, List.append_assoc]) hat'

/-! ## Runs -/

/-- The events of a step are those of the fiber that moves. -/
theorem Moves.filter_other (hm : Moves s g a e) (hne : g ≠ f) : e.events.filter (Event.ofFiber f) = [] := by
  cases hm with
  | @lock call next tail hc ho => cases call <;> simp [Server.acquired, Event.ofFiber, hne]
  | _ => simp [Event.ofFiber, hne, Server.goto]

/-- A step of another fiber leaves the phase as it is. -/
theorem Phase.other {rooms rooms' : Rooms} {x : Fiber} (hP : Phase f r p buffer rooms u x pending own)
    (h : x.control.holds = true → rooms' = rooms) : Phase f r p buffer rooms' u x pending own := by
  cases hP with
  | entered hr =>
    rw [← h rfl]
    exact .entered hr
  | waiting => exact .waiting
  | ignored hr => exact .ignored hr
  | called hr => exact .called hr
  | told hr horder hlen hsplit hat => exact .told hr horder hlen hsplit hat

theorem Phase.ne_done {rooms : Rooms} {x : Fiber} (hP : Phase f r p buffer rooms u x pending own) :
    x ≠ ⟨.init, .done⟩ := by
  rintro rfl
  cases hP with
  | told hr horder hlen hsplit hat => cases hat

/-- **A run** leads from phase to phase. -/
theorem phase_run (hdispatch : dispatch p.1 p.2 = .roomChat message)
    (hbuffer : buffer = chatBuffer (cstr (message.toList ++ p.1.behindChat)) u) (hu : u ≠ [])
    (h : chatServer.Reachable s) (hP : Phase f r p buffer s.rooms u (s.fibers f) (readsOf f es) own)
    (hsteady : chatServer.AllSteps (Server.Steady f) s es) (hrun : chatServer.run s es = some t) :
    ∃ events, t.log = s.log ++ events ∧
      Phase f r p buffer t.rooms u (t.fibers f) [] (own ++ events.filter (Event.ofFiber f)) := by
  induction es generalizing s own with
  | nil =>
    obtain rfl := Option.some.inj hrun
    exact ⟨[], (List.append_nil _).symm, by rw [List.filter_nil, List.append_nil]; exact hP⟩
  | cons l es ih =>
    obtain ⟨x, hx, hrun⟩ := Option.bind_eq_some_iff.1 hrun
    have hreach : chatServer.Reachable x := .step h trivial hx
    have hsteady' := hsteady.2 x hx
    rcases step_cases hx with ⟨rfl, -, rfl⟩ | ⟨g, a, e, rfl, -, hm, rfl⟩
    · have hne : f ≠ s.next := by
        rintro rfl
        exact hP.ne_done ((fresh_of_reach h).fibers s.next le_rfl)
      refine ih (s := s.accepted) hreach ?_ hsteady' hrun
      rw [accepted_fibers_ne hne]
      exact hP
    · have hnext : Phase f r p buffer (s.apply g e).rooms u ((s.apply g e).fibers f) (readsOf f es)
          (own ++ e.events.filter (Event.ofFiber f)) := by
        rcases eq_or_ne g f with rfl | hne
        · rw [apply_fibers_self]
          refine hm.phase hdispatch hbuffer hu (size_of_reach h) ?_ hP rfl
          rintro rfl
          exact hsteady.1 rfl
        · rw [apply_fibers_ne hne.symm, hm.filter_other hne, List.append_nil]
          rw [readsOf_quiet (fun _ _ heq => hne (Label.act.inj heq).1)] at hP
          exact hP.other fun hh => (locks_of_reach h).rooms_fixed hm hh hne.symm
      obtain ⟨events, hlog, hphase⟩ := ih hreach hnext hsteady' hrun
      refine ⟨e.events ++ events, ?_, ?_⟩
      · rw [hlog, apply_log, List.append_assoc]
      · rwa [List.filter_append, ← List.append_assoc]

theorem Moves.requests (hm : Moves s g a e) :
    e.events.countP (Event.requestOf f) = (readsOf f [.act g a]).length := by
  cases hm with
  | recv hc h0 h256 =>
    by_cases hg : g = f <;> simp [readsOf, Event.requestOf, hg]
  | @lock call next tail hc ho => cases call <;> rfl
  | _ => rfl

/-- **Every read dispatches one request.** -/
theorem requests_run (hrun : chatServer.run s es = some t) :
    ∃ events, t.log = s.log ++ events ∧ events.countP (Event.requestOf f) = (readsOf f es).length := by
  induction es generalizing s with
  | nil =>
    obtain rfl := Option.some.inj hrun
    exact ⟨[], (List.append_nil _).symm, rfl⟩
  | cons l es ih =>
    obtain ⟨x, hx, hrun⟩ := Option.bind_eq_some_iff.1 hrun
    obtain ⟨events, hlog, hcount⟩ := ih hrun
    rcases step_cases hx with ⟨rfl, -, rfl⟩ | ⟨g, a, e, rfl, -, hm, rfl⟩
    · exact ⟨events, hlog, hcount⟩
    · refine ⟨e.events ++ events, by rw [hlog, apply_log, List.append_assoc], ?_⟩
      rw [List.countP_append, hcount, hm.requests, ← List.length_append]
      exact congrArg List.length List.filterMap_append.symm

/-! ## What the sockets take -/

theorem since_eq {events : List Event} (h : t.log = s.log ++ events) : s.since t = events := by
  unfold Server.since
  rw [h, List.drop_left]

/-- What is left for `c` of the write a fiber is at. -/
def Control.left (c : ConnId) : Control → Bytes
  | .send dest rest _ _ => if dest = c then rest else []
  | _ => []

theorem left_of_after {x : Control} (h : x.after = none) (c : ConnId) : x.left c = [] := by
  cases x with
  | send dest rest todo k => cases h
  | _ => rfl

/-- **Taken and left are written**, in a step in which no write fails. -/
theorem Moves.taken (hm : Moves s f a e) (ha : a ≠ .fail) (c : ConnId) :
    (e.events.filterMap (Event.pieceTo c)).flatten ++ e.fiber.control.left c =
      (s.pc f).left c ++ (e.events.filterMap (Event.writtenTo f c)).flatten := by
  cases hm with
  | recv hc h0 h256 =>
    rw [hc]
    exact left_of_after (handle_sound _ _ _).1 c
  | eof hc =>
    rw [hc]
    simp only [Server.goto, Session.finish]
    split <;> rfl
  | @unlock cur next tail hc =>
    rw [hc]
    exact left_of_after (after_ret next tail) c
  | @lock call next tail hc ho =>
    rw [hc]
    cases call <;> rfl
  | suspend hr hb => exact (List.append_nil _).symm
  | @write dest data todo k hc =>
    rw [hc]
    by_cases hdest : dest = c <;> simp [Server.goto, Control.left, Event.pieceTo, Event.writtenTo, hdest]
  | @sendPart dest rest todo k n hc h0 hn hb =>
    rw [hc]
    by_cases hdest : dest = c <;> simp [Server.goto, Control.left, Event.pieceTo, Event.writtenTo, hdest]
  | @sendAll dest rest todo k hc h0 hb =>
    rw [hc]
    by_cases hdest : dest = c <;> simp [Server.goto, Control.left, Event.pieceTo, Event.writtenTo, hdest]
  | sendFail hc => exact absurd rfl ha
  | loginOk hc _ | loginFailed hc _ | enterRoom hc _ | refused hc _ | leaveRoom hc | listMissing hc _ | list hc _ _
  | broadcastMissing hc _ | broadcast hc _ _ | setUser hc | written hc | delete hc =>
    rw [hc]
    rfl

/-- **Back at its read**, the handler has broadcast its request to the whole room, unless its room is -1. -/
theorem Phase.at_read {rooms : Rooms} {x : Fiber} (hP : Phase f r p buffer rooms u x [] own)
    (hx : x.control = .read) :
    r = -1 ∧ own = [.recv f (dispatch p.1 p.2) .read] ∨
      r ≠ -1 ∧ ∃ members order, Row.Enumerates order (members.getD ∅) ∧ order.length ≤ 2 ∧
        own = answered f r p buffer members (order.map fun m => (m.2, buffer)) := by
  cases hP with
  | ignored hr => exact .inl ⟨hr, rfl⟩
  | called hr => cases hx
  | entered hr => cases hx
  | @told ses members order written todo x hr horder hlen hsplit hat =>
    obtain rfl : x = .read := hx
    cases hat with
    | read hdone =>
      subst hdone
      rw [List.append_nil] at hsplit
      exact .inr ⟨hr, members, order, horder, hlen, by rw [hsplit]⟩

/-- The packet of the click has 6 bytes of header. -/
theorem btnSendChatClick_length {packet : Bytes} (hle : (UTF8.getBytes m).length ≤ 255)
    (hp : btnSendChatClick m = some packet) : packet.length = 6 + (UTF8.getBytes m).length := by
  rw [btnSendChatClick_eq hle] at hp
  rw [← Option.some.inj hp, List.length_append, serializeHeader_length]

/-- **One request** is dispatched exactly where the packet fits the buffer. -/
theorem ChatSent.requests (hs : ChatSent s t es f r u m) :
    (s.since t).countP (Event.requestOf f) = 1 ↔ (UTF8.getBytes m).length ≤ 250 := by
  obtain ⟨packet, hp, hfilled⟩ := hs.reads
  have hlength := btnSendChatClick_length hs.le hp
  have hne : packet ≠ [] := List.ne_nil_of_length_pos (by omega)
  obtain ⟨events, hlog, hcount⟩ := requests_run (f := f) hs.run
  rw [since_eq hlog, hcount, ← List.length_map (f := Prod.snd), hfilled.length_eq_one_iff hne, hlength]
  omega

/-- **What the handler has done** when it is back at its read, of a chat that it has read at once. -/
theorem ChatSent.done (h : chatServer.Reachable s) (hs : ChatSent s t es f r u m) (hends : t.pc f = .read)
    (hreads : readsOf f es = [p])
    (hdispatch : dispatch p.1 p.2 = .roomChat message)
    (hbuffer : buffer = chatBuffer (cstr (message.toList ++ p.1.behindChat)) u) :
    r = -1 ∧ (s.since t).filter (Event.ofFiber f) = [.recv f (dispatch p.1 p.2) .read] ∨
      r ≠ -1 ∧ ∃ members order, Row.Enumerates order (members.getD ∅) ∧ order.length ≤ 2 ∧
        (s.since t).filter (Event.ofFiber f) =
          answered f r p buffer members (order.map fun m => (m.2, buffer)) := by
  have hses := hs.session
  have hpc := hs.begins
  rw [Server.ses] at hses
  rw [Server.pc] at hpc
  have hstart : s.fibers f = ⟨⟨u, r⟩, .read⟩ := by rw [← hses, ← hpc]
  have hphase : Phase f r p buffer s.rooms u (s.fibers f) (readsOf f es) [] := by
    rw [hstart, hreads]
    exact .waiting
  have hu : u ≠ [] := (seated_of_reach h).named r u f hs.seat
  obtain ⟨events, hevents, hend⟩ := phase_run hdispatch hbuffer hu h hphase hs.steady hs.run
  rw [← since_eq hevents, List.nil_append] at hend
  exact hend.at_read hends

/-- A handler whose client stays does not leave its loop. -/
theorem loop_run (h : chatServer.Reachable s) (hloop : ¬ (s.pc f).Gone)
    (hsteady : chatServer.AllSteps (Server.Steady f) s es) (hrun : chatServer.run s es = some t) :
    ¬ (t.pc f).Gone := by
  induction es generalizing s with
  | nil =>
    obtain rfl := Option.some.inj hrun
    exact hloop
  | cons l es ih =>
    obtain ⟨x, hx, hrun⟩ := Option.bind_eq_some_iff.1 hrun
    have hreach : chatServer.Reachable x := .step h trivial hx
    refine ih hreach ?_ (hsteady.2 x hx) hrun
    rcases step_cases hx with ⟨rfl, -, rfl⟩ | ⟨g, a, e, rfl, -, hm, rfl⟩
    · have hne : f ≠ s.next := by
        rintro rfl
        exact hloop (.inr (fresh_of_reach h).pc_next)
      rwa [accepted_pc_ne hne]
    · rcases eq_or_ne f g with rfl | hne
      · rw [apply_pc_self]
        refine hm.not_gone ?_ hloop
        rintro rfl
        exact hsteady.1 rfl
      · rwa [apply_pc_ne hne]

/-- The handler can come back to its read. -/
theorem ChatSent.returns (h : chatServer.Reachable s) (hs : ChatSent s t es f r u m) :
    ∃ t', chatServer.Path Server.Calm t t' ∧ t'.pc f = .read := by
  have hloop : ¬ (s.pc f).Gone := by
    rw [hs.begins]
    rintro (hexit | hdone)
    · cases hexit
    · cases hdone
  exact exists_return (h.run hs.run) (loop_run h hloop hs.steady hs.run)

namespace Script

/-- "alice" clicks Send Chat; her handler reads the packet and broadcasts what it has read. -/
def chats (packet : Bytes) : List Label := recv 0 (packet.take 256) :: broadcast 0 pair 294

/-- No client hangs up, no write fails, and none goes to a deleted connection. -/
def steady (s : Server) : Label → Bool
  | .act _ .eof => false
  | .act _ .fail => false
  | .act g (.send _) =>
    match s.pc g with
    | .send dest _ _ _ => decide (s.pc dest ≠ .done)
    | _ => true
  | _ => true

end Script

end SocketAcl
