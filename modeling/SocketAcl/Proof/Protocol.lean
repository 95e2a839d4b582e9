import SocketAcl.Proof.Script
import SocketAcl.Proof.Units

/-!
# What a client hears after it asked for a room

From its first `ReqRoomEnter` on a client decodes whatever arrives as a notification.

* `SameProtocol`: what is written to it from then on are complete packets that its dispatcher knows.
* `same_protocol`: so it is while no login is answered any more on a connection that has asked for
  a room, and nobody enters a full room; these two are answered in plain text.
-/

namespace SocketAcl

/-- Does client `c` ask for a room here? -/
def Event.asksRoom (c : ConnId) : Event → Bool
  | .recv f (.roomEnter _) _ => decide (f = c)
  | _ => false

/-- What this event writes to `c`. -/
def Event.dataTo (c : ConnId) : Event → Option Bytes
  | .write _ _ dest data => if dest = c then some data else none
  | _ => none

namespace Server

/-- Has client `c` asked for a room? -/
def entered (s : Server) (c : ConnId) : Bool := s.log.any (Event.asksRoom c)

/-- What was written to `c` since its first `ReqRoomEnter`, one entry for each `conn->write`. -/
def writtenSince (s : Server) (c : ConnId) : List Bytes :=
  (s.log.dropWhile fun ev => !ev.asksRoom c).filterMap (Event.dataTo c)

end Server

/-- **A packet for the client**: it is complete, and the dispatcher knows it. -/
structure Handled (p : Bytes) : Prop where
  complete : (PacketHeader.deserialize p).totalSize.toNat = p.length
  id : (PacketHeader.deserialize p).id = PacketID.ntfRoomChat ∨
    (PacketHeader.deserialize p).id = PacketID.ntfUserList
  known : ∃ n, Client.processReceivedData (fill 512 p) = some n ∧ ∀ id, n ≠ .unknown id

/-- **Both ends speak the same protocol**: what is written to a client from its first `ReqRoomEnter` on is a
concatenation of packets for it. -/
def SameProtocol (s : Server) : Prop :=
  ∀ c, ∃ packets : List Bytes, (s.writtenSince c).flatten = packets.flatten ∧ ∀ p ∈ packets, Handled p

/-- Steps that lead to no reply in plain text behind a `ReqRoomEnter`: no answer to a login on a connection that
has asked for a room, and no entry into a full room. -/
def NoTextReply (s : Server) : Label → Bool
  | .act f (.reply _) => !s.entered f
  | .act f (.run _ _) => match s.pc f with
    | .body (.enterRoom roomNumber _) _ _ => decide ((s.rooms.row roomNumber).size < 2)
    | _ => true
  | _ => true

/-! ## The packets -/

theorem handled_packet (w : Written) : Handled w.packet where
  complete := w.totalSize_eq
  id := by
    have hid := PacketHeader.id_toNat w.packet
    rw [w.header_getD (by decide), w.header_getD (by decide)] at hid
    cases w with
    | userList type userID1 userID2 => exact .inr (UInt16.toNat_inj.1 hid)
    | roomChat message senderID => exact .inl (UInt16.toNat_inj.1 hid)
  known := ⟨w.notification, processReceivedData_packet w, fun id hid => by cases w <;> cases hid⟩

variable {s t : Server} {f g c : ConnId} {a : Act} {e : Effect} {C : Server → Label → Prop}

/-! ## What a step writes -/

/-- Only the issue of a `conn->write` is a write. -/
theorem Moves.writes (hm : Moves s f a e) :
    (∃ dest data todo k, s.pc f = .write ((dest, data) :: todo) k ∧ e.events = [.write f k.cur dest data]) ∨
      ∀ c, e.events.filterMap (Event.dataTo c) = [] := by
  cases hm with
  | write hc => exact .inl ⟨_, _, _, _, hc, rfl⟩
  | @lock call next tail hc ho =>
    right
    intro c
    cases call <;> rfl
  | _ => exact .inr fun _ => rfl

/-- Only a handler that was reading asks for a room, for its own client. -/
theorem Moves.asks (hm : Moves s f a e) {ev : Event} (hev : ev ∈ e.events) (h : ev.asksRoom c = true) :
    c = f ∧ e.fiber.control.after = none := by
  cases hm with
  | @recv stack data hc h0 h256 =>
    rw [List.mem_singleton.1 hev] at h
    refine ⟨?_, (handle_sound _ _ _).1⟩
    unfold Event.asksRoom at h
    split at h
    · rename_i heq
      obtain ⟨rfl, -, -⟩ := Event.recv.inj heq
      exact (of_decide_eq_true h).symm
    · cases h
  | @lock call next tail hc ho =>
    cases call with
    | broadcast site r buffer =>
      rw [List.mem_singleton.1 hev] at h
      cases h
    | _ => cases hev
  | loginOk hc _ | loginFailed hc _ | enterRoom hc _ | refused hc _ | leaveRoom hc | write hc | sendPart hc _ _ _
  | sendAll hc _ _ | delete hc =>
    rw [List.mem_singleton.1 hev] at h
    cases h
  | _ => cases hev

theorem entered_apply (hm : Moves s f a e) (h : e.fiber.control.after ≠ none ∨ c ≠ f) :
    (s.apply f e).entered c = s.entered c := by
  unfold Server.entered
  rw [apply_log, List.any_append, Bool.or_eq_left_iff_imp]
  intro hany
  obtain ⟨ev, hev, hasks⟩ := List.any_eq_true.1 hany
  obtain ⟨hcf, hafter⟩ := hm.asks hev hasks
  exact (h.elim (fun h => h hafter) fun h => h hcf).elim

/-- **What a step adds to what was written.** -/
theorem writtenSince_apply (hm : Moves s f a e) (c : ConnId) :
    (s.apply f e).writtenSince c =
      if s.entered c = true then s.writtenSince c ++ e.events.filterMap (Event.dataTo c) else [] := by
  unfold Server.writtenSince
  rw [apply_log, List.dropWhile_append]
  have hempty : (s.log.dropWhile fun ev => !ev.asksRoom c).isEmpty = !s.entered c := by
    unfold Server.entered
    rw [Bool.eq_iff_iff]
    simp [List.isEmpty_iff, List.dropWhile_eq_nil_iff]
  rw [hempty]
  cases hentered : s.entered c with
  | true => exact List.filterMap_append
  | false =>
    -- the step that asks for the room writes nothing itself
    rcases hm.writes with ⟨dest, data, todo, k, -, hev⟩ | hquiet
    · rw [hev]
      rfl
    -- no write among its events, so none behind the request
    · have hsub := (List.dropWhile_sublist (l := e.events) fun ev => !ev.asksRoom c).filterMap (Event.dataTo c)
      rw [hquiet c] at hsub
      exact List.sublist_nil.1 hsub

/-- **What a fiber is writing** it was writing before, or it is about to begin. -/
theorem Moves.after_cases (hm : Moves s f a e) {k : After} (h : e.fiber.control.after = some k) :
    (s.pc f).after = some k ∨ (k.cur = none ∧ ∃ reply, a = .reply reply) ∨
    (∃ r u next tail order type, s.pc f = .body (.enterRoom r u) next tail ∧ a = .run order type ∧
      (SocketAcl.enterRoom s.rooms r u f).1 = false) ∨
    ∃ site r buffer, k.cur = some (.broadcast site r buffer) := by
  cases hm with
  | recv hc h0 h256 =>
    rw [(handle_sound _ _ _).1] at h
    cases h
  | eof hc =>
    simp only [Server.goto, Session.finish] at h
    split at h <;> cases h
  | unlock hc =>
    rw [show (_ : Effect).fiber.control.after = none from after_ret _ _] at h
    cases h
  | loginOk hc hr | loginFailed hc hr =>
    obtain rfl := Option.some.inj h
    exact .inr (.inl ⟨rfl, _, rfl⟩)
  | refused hc ha => exact .inr (.inr (.inl ⟨_, _, _, _, _, _, hc, rfl, ha⟩))
  | broadcast hc hr he =>
    obtain rfl := Option.some.inj h
    exact .inr (.inr (.inr ⟨_, _, _, rfl⟩))
  | write hc | sendPart hc _ _ _ | sendAll hc _ _ | sendFail hc =>
    rw [hc]
    exact .inl h
  | suspend hr hb => exact .inl h
  | _ => cases h

/-! ## The invariant -/

/-- **Only packets are written to those who asked for a room.** -/
structure Packets (s : Server) : Prop where
  login : ∀ f k, (s.pc f).after = some k → k.cur = none → s.entered f = false
  full : ∀ f k r u, (s.pc f).after = some k → k.cur ≠ some (.enterRoom r u)
  data : ∀ c, ∀ data ∈ s.writtenSince c, ∃ w : Written, w.packet = data

theorem accepted_of_noTextReply {r : Int32} {u : Bytes} {next : List Call} {tail : Tail}
    {order : List (Bytes × ConnId)} {type : UInt8} (h : NoTextReply s (.act f (.run order type)) = true)
    (hc : s.pc f = .body (.enterRoom r u) next tail) : (enterRoom s.rooms r u f).1 = true := by
  simp only [NoTextReply, hc, decide_eq_true_eq] at h
  exact enterRoom_accepted_iff.2 h

/-- What a fiber has in hand for someone who asked for a room is a packet. -/
theorem Packets.of_write (hP : Packets s) (hx : FiberOK f (s.fibers f)) (hU : Units (s.pc f)) {data : Bytes}
    {todo : List (ConnId × Bytes)} {k : After} (hc : s.pc f = .write ((c, data) :: todo) k)
    (hentered : s.entered c = true) : ∃ w : Written, w.packet = data := by
  have hafter : (s.pc f).after = some k := by rw [hc]; rfl
  have hdata : data = k.unit := hU.todo k hafter _ (by rw [hc]; exact List.mem_cons_self)
  cases k with
  | login user =>
    -- a login is answered on the handler's own connection
    have hown : c = f := hx.own (by rw [show (s.fibers f).control = _ from hc]; rfl) c
      (by rw [show (s.fibers f).control = _ from hc]; exact List.mem_cons_self)
    have hout := hP.login f _ hafter rfl
    rw [← hown, hentered] at hout
    cases hout
  | unlock cur next tail =>
    cases cur with
    | enterRoom r u => exact absurd rfl (hP.full f _ r u hafter)
    | broadcast site r buffer =>
      obtain ⟨w, hw⟩ := hU.calls site r buffer (by rw [hc]; exact List.mem_cons_self)
      exact ⟨w, hw.trans hdata.symm⟩
    | leaveRoom r u | sendUserListToAll r =>
      obtain ⟨u, hu⟩ := hU.whole _ hafter
      exact absurd hu u.bytes_ne_nil

theorem packets_of_reach (h : chatServer.Reach (fun s l => NoTextReply s l = true) s) : Packets s := by
  refine chat_inv (I := Packets) (J := fun s => (∀ f, FiberOK f (s.fibers f)) ∧ ∀ f, Units (s.pc f))
    (fun s hs => ⟨fiberOK_of_reach hs, units_of_reach hs⟩) ?_ ?_ ?_ h
  · exact ⟨fun f k hk => (by cases hk), fun f k r u hk => (by cases hk), fun c data hdata => (by cases hdata)⟩
  · rintro s - hP -
    have hpc : ∀ f k, (s.accepted.pc f).after = some k → (s.pc f).after = some k := by
      intro f k hk
      rcases eq_or_ne f s.next with rfl | hne
      · rw [accepted_pc_self] at hk
        cases hk
      · rwa [accepted_pc_ne hne] at hk
    exact ⟨fun f k hk => hP.login f k (hpc f k hk), fun f k r u hk => hP.full f k r u (hpc f k hk), hP.data⟩
  · rintro s f a e ⟨hx, hU⟩ hP - hC hm
    have hother : ∀ g k, g ≠ f → ((s.apply f e).pc g).after = some k → (s.pc g).after = some k := by
      intro g k hne hk
      rwa [apply_pc_ne hne] at hk
    refine ⟨?_, ?_, ?_⟩
    -- a login is answered in text only to those who have not asked for a room
    · intro g k hk hcur
      rcases eq_or_ne g f with rfl | hne
      · rw [apply_pc_self] at hk
        rw [entered_apply hm (.inl (by rw [hk]; exact Option.some_ne_none k))]
        rcases hm.after_cases hk with h | ⟨-, reply, rfl⟩ | ⟨r, u, next, tail, order, type, hc, rfl, ha⟩ |
          ⟨_, _, _, h⟩
        · exact hP.login g k h hcur
        · simpa [NoTextReply] using hC
        · rw [accepted_of_noTextReply hC hc] at ha
          cases ha
        · rw [hcur] at h
          cases h
      · rw [entered_apply hm (.inr hne)]
        exact hP.login g k (hother g k hne hk) hcur
    -- and nobody is refused
    · intro g k r u hk
      rcases eq_or_ne g f with rfl | hne
      · rw [apply_pc_self] at hk
        rcases hm.after_cases hk with h | ⟨h, -⟩ | ⟨r, u, next, tail, order, type, hc, rfl, ha⟩ | ⟨_, _, _, h⟩
        · exact hP.full g k r u h
        · rw [h]
          rintro ⟨⟩
        · rw [accepted_of_noTextReply hC hc] at ha
          cases ha
        · rw [h]
          rintro ⟨⟩
      · exact hP.full g k r u (hother g k hne hk)
    -- what is written to someone who asked was in hand, and so is a packet
    · intro c data hdata
      rw [writtenSince_apply hm c] at hdata
      split at hdata
      · rename_i hentered
        rcases List.mem_append.1 hdata with h | h
        · exact hP.data c data h
        · rcases hm.writes with ⟨dest, data', todo, k, hc, hev⟩ | hquiet
          · rw [hev] at h
            obtain ⟨hdest, rfl⟩ : dest = c ∧ data' = data := by simpa [Event.dataTo] using h
            rw [hdest] at hc
            exact hP.of_write (hx f) (hU f) hc hentered
          · rw [hquiet c] at h
            cases h
      · cases hdata

/-- **Both ends speak the same protocol** in every run without a reply in plain text behind a `ReqRoomEnter`. -/
theorem same_protocol (h : chatServer.Reach (fun s l => NoTextReply s l = true) s) : SameProtocol s := by
  intro c
  refine ⟨s.writtenSince c, rfl, fun p hp => ?_⟩
  obtain ⟨w, rfl⟩ := (packets_of_reach h).data c p hp
  exact handled_packet w

/-- The first client of a room hears packets only: the user list and its own announcement. -/
theorem same_protocol_entered : ∃ s, chatServer.Reach (fun s l => NoTextReply s l = true) s ∧
    (s.writtenSince 0).length = 2 ∧ SameProtocol s := by
  obtain ⟨s, hs, hP⟩ := System.exists_reach (S := chatServer) (C := fun s l => NoTextReply s l = true)
    (T := NoTextReply) (P := fun s => decide ((s.writtenSince 0).length = 2)) Script.aliceEnters
    (fun _ _ _ h _ => h) (by decide +kernel)
  exact ⟨s, hs, of_decide_eq_true hP, same_protocol hs⟩

/-- "alice" and "bob" fill room 1, and a third client asks for it. -/
def Script.thirdAsks : List Label :=
  [.accept, .accept, .accept] ++ loginAlice 0 ++ enter 0 1 [(ascii "alice", 0)] ++ [suspend 0] ++
    login 1 (ascii "bob") (ascii "pw") (.bulk (ascii "pw")) "Login Success!" ++
    enter 1 1 [(ascii "alice", 0), (ascii "bob", 1)] ++ [suspend 1] ++
    login 2 (ascii "carol") (ascii "pw") (.bulk (ascii "pw")) "Login Success!" ++ refused 2 1

/-- **A refusal in plain text**: "Room is full!" is no concatenation of packets. -/
theorem refused_in_text : ∃ s, chatServer.Reachable s ∧ s.writtenSince 2 = [ascii "Room is full!"] ∧
    ¬ SameProtocol s := by
  obtain ⟨s, hs, hP⟩ := System.exists_reachable (S := chatServer)
    (P := fun s => decide (s.writtenSince 2 = [ascii "Room is full!"])) Script.thirdAsks (by decide +kernel)
  have hwritten := of_decide_eq_true hP
  refine ⟨s, hs, hwritten, fun h => ?_⟩
  obtain ⟨packets, hflatten, hhandled⟩ := h 2
  rw [hwritten, List.flatten_singleton] at hflatten
  cases packets with
  | nil => cases hflatten
  | cons p packets =>
    -- whatever its length is, a beginning of the text has no packet ID where one is looked for
    have hp : p = (ascii "Room is full!").take p.length := by
      rw [hflatten, List.flatten_cons, List.take_left]
    have hlen : p.length ≤ 13 := by
      have hle := congrArg List.length hflatten
      rw [List.flatten_cons, List.length_append] at hle
      exact Nat.le.intro hle.symm
    have hno : ∀ n ≤ 13, (PacketHeader.deserialize ((ascii "Room is full!").take n)).id ≠ PacketID.ntfRoomChat ∧
        (PacketHeader.deserialize ((ascii "Room is full!").take n)).id ≠ PacketID.ntfUserList := by decide
    have hid := (hhandled p List.mem_cons_self).id
    rw [hp] at hid
    exact hid.elim (hno _ hlen).1 (hno _ hlen).2

end SocketAcl
