import SocketAcl.Spec.Server

/-!
# What one step of the chat server can do

`Moves` lists the steps of a fiber by program point, with their guards and effects;
`step_cases` is the inversion of `Server.step`, so that no later proof unfolds it, and
`Moves.step` says that each of the listed steps can be made.

* `Moves.rooms_cases`: only an accepted `EnterRoom` and a `LeaveRoom` change `rooms_`.
* `Moves.session_cases`: only a `ReqRoomEnter` and a successful login change a session.
-/

namespace SocketAcl

/-- The state of fiber `f` at program point `c`. -/
abbrev Server.pc (s : Server) (f : ConnId) : Control := (s.fibers f).control

/-- The local variables of fiber `f`. -/
abbrev Server.ses (s : Server) (f : ConnId) : Session := (s.fibers f).session

/-- **The steps of a fiber**, by program point. -/
inductive Moves (s : Server) (f : ConnId) : Act → Effect → Prop
  | recv {stack : Stack} {data : Bytes} (hc : s.pc f = .read) (h0 : 0 < data.length)
      (h256 : data.length ≤ 256) :
      Moves s f (.recv stack data)
        { s.goto f ((s.ses f).handle stack (dispatch stack data)).2 with
          fiber := ⟨((s.ses f).handle stack (dispatch stack data)).1,
            ((s.ses f).handle stack (dispatch stack data)).2⟩
          events := [.recv f (dispatch stack data) ((s.ses f).handle stack (dispatch stack data)).2] }
  | eof (hc : s.pc f = .read) : Moves s f .eof (s.goto f (s.ses f).finish)
  | loginOk {userID authToken : Bytes} {reply : RedisReply} (hc : s.pc f = .get userID authToken)
      (hr : reply.get = some authToken) :
      Moves s f (.reply reply)
        { s.goto f (.write [(f, ascii "Login Success!")] (.login (some userID))) with
          events := [.login f userID authToken reply] }
  | loginFailed {userID authToken : Bytes} {reply : RedisReply} (hc : s.pc f = .get userID authToken)
      (hr : reply.get ≠ some authToken) :
      Moves s f (.reply reply)
        { s.goto f (.write [(f, ascii "Login Failed!")] (.login none)) with
          events := [.login f userID authToken reply] }
  | lock {call : Call} {next : List Call} {tail : Tail} (hc : s.pc f = .lock call next tail)
      (ho : s.owner = none) :
      Moves s f .go { s.goto f (.body call next tail) with owner := some f, events := s.acquired f call }
  | enterRoom {r : Int32} {u : Bytes} {next : List Call} {tail : Tail} {order : List (Bytes × ConnId)}
      {type : UInt8} (hc : s.pc f = .body (.enterRoom r u) next tail)
      (ha : (enterRoom s.rooms r u f).1 = true) :
      Moves s f (.run order type)
        { s.goto f (.unlock (.enterRoom r u) (afterEnter r u ++ next) tail) with
          rooms := (SocketAcl.enterRoom s.rooms r u f).2, events := [.enter f r u true] }
  | refused {r : Int32} {u : Bytes} {next : List Call} {tail : Tail} {order : List (Bytes × ConnId)}
      {type : UInt8} (hc : s.pc f = .body (.enterRoom r u) next tail)
      (ha : (SocketAcl.enterRoom s.rooms r u f).1 = false) :
      Moves s f (.run order type)
        { s.goto f (.write [(f, ascii "Room is full!")] (.unlock (.enterRoom r u) next tail)) with
          events := [.enter f r u false] }
  | leaveRoom {r : Int32} {u : Bytes} {next : List Call} {tail : Tail} {order : List (Bytes × ConnId)}
      {type : UInt8} (hc : s.pc f = .body (.leaveRoom r u) next tail) :
      Moves s f (.run order type)
        { s.goto f (.unlock (.leaveRoom r u) (afterLeave r u ++ next) tail) with
          rooms := SocketAcl.leaveRoom s.rooms r u, events := [.leave f r u] }
  | listMissing {r : Int32} {next : List Call} {tail : Tail} {order : List (Bytes × ConnId)}
      {type : UInt8} (hc : s.pc f = .body (.sendUserListToAll r) next tail) (hr : r ∉ s.rooms) :
      Moves s f (.run order type) (s.goto f (.unlock (.sendUserListToAll r) next tail))
  | list {r : Int32} {next : List Call} {tail : Tail} {order : List (Bytes × ConnId)}
      {type : UInt8} (hc : s.pc f = .body (.sendUserListToAll r) next tail) (hr : r ∈ s.rooms)
      (he : Row.Enumerates order (s.rooms.row r)) :
      Moves s f (.run order type) (s.goto f (.unlock (.sendUserListToAll r)
        (.broadcast .userList r (userListBuffer type (firstTwo order).1 (firstTwo order).2) :: next) tail))
  | broadcastMissing {site : Site} {r : Int32} {buffer : Bytes} {next : List Call} {tail : Tail}
      {order : List (Bytes × ConnId)} {type : UInt8}
      (hc : s.pc f = .body (.broadcast site r buffer) next tail) (hr : r ∉ s.rooms) :
      Moves s f (.run order type) (s.goto f (.unlock (.broadcast site r buffer) next tail))
  | broadcast {site : Site} {r : Int32} {buffer : Bytes} {next : List Call} {tail : Tail}
      {order : List (Bytes × ConnId)} {type : UInt8}
      (hc : s.pc f = .body (.broadcast site r buffer) next tail) (hr : r ∈ s.rooms)
      (he : Row.Enumerates order (s.rooms.row r)) :
      Moves s f (.run order type) (s.goto f
        (.write (order.map fun e => (e.2, buffer)) (.unlock (.broadcast site r buffer) next tail)))
  | write {dest : ConnId} {data : Bytes} {todo : List (ConnId × Bytes)} {k : After}
      (hc : s.pc f = .write ((dest, data) :: todo) k) :
      Moves s f .go { s.goto f (.send dest data todo k) with events := [.write f k.cur dest data] }
  | setUser {user : Option Bytes} (hc : s.pc f = .write [] (.login user)) :
      Moves s f .go { s.goto f .read with
        fiber := ⟨{ s.ses f with currentUserID := user.getD (s.ses f).currentUserID }, .read⟩ }
  | written {cur : Call} {next : List Call} {tail : Tail} (hc : s.pc f = .write [] (.unlock cur next tail)) :
      Moves s f .go (s.goto f (.unlock cur next tail))
  | sendPart {dest : ConnId} {rest : Bytes} {todo : List (ConnId × Bytes)} {k : After} {n : ℕ}
      (hc : s.pc f = .send dest rest todo k) (h0 : 0 < n) (hn : n < rest.length)
      (hb : s.broken dest = false) :
      Moves s f (.send n) { s.goto f (.send dest (rest.drop n) todo k) with
        events := [.sent dest (rest.take n)] }
  | sendAll {dest : ConnId} {rest : Bytes} {todo : List (ConnId × Bytes)} {k : After}
      (hc : s.pc f = .send dest rest todo k) (h0 : 0 < rest.length) (hb : s.broken dest = false) :
      Moves s f (.send rest.length) { s.goto f (.write todo k) with events := [.sent dest rest] }
  | sendFail {dest : ConnId} {rest : Bytes} {todo : List (ConnId × Bytes)} {k : After}
      (hc : s.pc f = .send dest rest todo k) :
      Moves s f .fail { s.goto f (.write todo k) with broken := Function.update s.broken dest true }
  | unlock {cur : Call} {next : List Call} {tail : Tail} (hc : s.pc f = .unlock cur next tail) :
      Moves s f .go { s.goto f (.ret next tail) with owner := none }
  | delete (hc : s.pc f = .delete) :
      Moves s f .go { s.goto f .done with running := none, events := [.deleted f] }
  | suspend (hr : s.running = some f) (hb : (s.pc f).blocks s.owner = true) :
      Moves s f .suspend { s.goto f (s.pc f) with running := none }

variable {s t : Server} {f g : ConnId} {a : Act} {e : Effect}

theorem critical_moves {call : Call} {next : List Call} {tail : Tail} {order : List (Bytes × ConnId)}
    {type : UInt8} (hc : s.pc f = .body call next tail)
    (h : s.critical f call next tail order type = some e) : Moves s f (.run order type) e := by
  cases call with
  | enterRoom r u =>
    simp only [Server.critical, Option.some.injEq] at h
    subst h
    cases ha : (enterRoom s.rooms r u f).1 with
    | true => exact .enterRoom hc ha
    | false =>
      have hm : Moves s f (.run order type) _ := .refused hc ha
      simpa [enterRoom_refused ha, Server.goto] using hm
  | leaveRoom r u =>
    simp only [Server.critical, Option.some.injEq] at h
    exact h ▸ .leaveRoom hc
  | sendUserListToAll r =>
    simp only [Server.critical] at h
    split at h
    · rename_i hr
      exact Option.some.inj h ▸ .listMissing hc hr
    · rename_i hr
      split at h
      · rename_i he
        rw [Nested.touch_of_mem (not_not.1 hr)] at h
        exact Option.some.inj h ▸ .list hc (not_not.1 hr) he
      · cases h
  | broadcast site r buffer =>
    simp only [Server.critical] at h
    split at h
    · rename_i hr
      exact Option.some.inj h ▸ .broadcastMissing hc hr
    · rename_i hr
      split at h
      · rename_i he
        rw [Nested.touch_of_mem (not_not.1 hr)] at h
        exact Option.some.inj h ▸ .broadcast hc (not_not.1 hr) he
      · cases h

theorem fiberStep_moves (h : s.fiberStep f a = some e) : Moves s f a e := by
  unfold Server.fiberStep at h
  split at h
  · rename_i stack data hc
    split at h
    · rename_i hd
      exact Option.some.inj h ▸ .recv hc hd.1 hd.2
    · cases h
  · rename_i hc
    exact Option.some.inj h ▸ .eof hc
  · rename_i userID authToken reply hc
    by_cases hr : reply.get = some authToken
    · have hm := Moves.loginOk hc hr
      simp only [SocketAcl.loginOk, hr, decide_true, if_true, Option.some.injEq] at h
      exact h ▸ hm
    · have hm := Moves.loginFailed hc hr
      simp only [SocketAcl.loginOk, hr, decide_false, Option.some.injEq] at h
      exact h ▸ hm
  · rename_i call next tail hc
    split at h
    · rename_i ho
      exact Option.some.inj h ▸ .lock hc ho
    · cases h
  · rename_i call next tail order type hc
    exact critical_moves hc h
  · rename_i dest data todo k hc
    exact Option.some.inj h ▸ .write hc
  · rename_i user hc
    have hm := Moves.setUser hc
    cases user with
    | none => exact Option.some.inj h ▸ hm
    | some u => exact Option.some.inj h ▸ hm
  · rename_i cur next tail hc
    exact Option.some.inj h ▸ .written hc
  · rename_i dest rest todo k n hc
    split at h
    · rename_i hn
      obtain ⟨h0, hle, hb⟩ := hn
      simp only [Option.some.injEq] at h
      rcases Nat.eq_or_lt_of_le hle with rfl | hlt
      · have hm := Moves.sendAll hc h0 hb
        rw [if_pos rfl, List.take_length] at h
        exact h ▸ hm
      · have hm := Moves.sendPart hc h0 hlt hb
        rw [if_neg (by omega)] at h
        exact h ▸ hm
    · cases h
  · rename_i dest rest todo k hc
    exact Option.some.inj h ▸ .sendFail hc
  · rename_i cur next tail hc
    exact Option.some.inj h ▸ .unlock hc
  · rename_i hc
    exact Option.some.inj h ▸ .delete hc
  · split at h
    · rename_i hb
      exact Option.some.inj h ▸ .suspend hb.1 hb.2
    · cases h
  · cases h

/-- **`Moves` lists no step too many.** -/
theorem Moves.fiberStep (hm : Moves s f a e) : s.fiberStep f a = some e := by
  unfold Server.fiberStep
  cases hm with
  | recv hc h0 h256 =>
    rw [show (s.fibers f).control = _ from hc]
    exact if_pos ⟨h0, h256⟩
  | @loginOk userID authToken reply hc hr =>
    have hok : SocketAcl.loginOk reply authToken = true := decide_eq_true hr
    rw [show (s.fibers f).control = _ from hc]
    simp only [hok, if_true]
  | @loginFailed userID authToken reply hc hr =>
    have hfail : SocketAcl.loginOk reply authToken = false := decide_eq_false hr
    rw [show (s.fibers f).control = _ from hc]
    simp only [hfail, Bool.false_eq_true, if_false]
  | lock hc ho =>
    rw [show (s.fibers f).control = _ from hc]
    exact if_pos ho
  | enterRoom hc ha =>
    rw [show (s.fibers f).control = _ from hc]
    simp only [Server.critical, ha, if_true]
  | refused hc ha =>
    rw [show (s.fibers f).control = _ from hc]
    simp only [Server.critical, ha, Bool.false_eq_true, if_false, enterRoom_refused ha]
    rfl
  | listMissing hc hr | broadcastMissing hc hr =>
    rw [show (s.fibers f).control = _ from hc]
    exact if_pos hr
  | list hc hr he | broadcast hc hr he =>
    rw [show (s.fibers f).control = _ from hc]
    simp only [Server.critical]
    rw [if_neg (not_not.2 hr), if_pos he, Nested.touch_of_mem hr]
    rfl
  | @setUser user hc =>
    rw [show (s.fibers f).control = _ from hc]
    cases user <;> rfl
  | sendPart hc h0 hn hb =>
    rw [show (s.fibers f).control = _ from hc]
    simp only
    rw [if_pos ⟨h0, hn.le, hb⟩, if_neg hn.ne]
  | sendAll hc h0 hb =>
    rw [show (s.fibers f).control = _ from hc]
    simp only [List.take_length, if_true]
    exact if_pos ⟨h0, le_rfl, hb⟩
  | suspend hr hb =>
    cases hc : (s.fibers f).control with
    | read | get u t | lock call next tail | send dest rest todo k =>
      rw [Server.pc, hc] at hb ⊢
      exact if_pos ⟨hr, hb⟩
    | _ =>
      rw [Server.pc, hc] at hb
      cases hb
  | leaveRoom hc =>
    rw [show (s.fibers f).control = _ from hc]
    rfl
  | eof hc | write hc | written hc | sendFail hc | unlock hc | delete hc =>
    rw [show (s.fibers f).control = _ from hc]

/-- The state after a connection was accepted. -/
def Server.accepted (s : Server) : Server :=
  { s with fibers := Function.update s.fibers s.next ⟨.init, .read⟩, next := s.next + 1 }

/-- Fiber `f` may move: it is running, or the scheduler may pick it. -/
def Server.Turn (s : Server) (f : ConnId) : Prop := s.running = none ∨ s.running = some f

/-- **Inversion of a server step.** -/
theorem step_cases {l : Label} (h : s.step l = some t) :
    (l = .accept ∧ s.running = none ∧ t = s.accepted) ∨
    ∃ f a e, l = .act f a ∧ s.Turn f ∧ Moves s f a e ∧ t = s.apply f e := by
  cases l with
  | accept =>
    simp only [Server.step] at h
    split at h
    · rename_i hr
      exact .inl ⟨rfl, hr, (Option.some.inj h).symm⟩
    · cases h
  | act f a =>
    simp only [Server.step] at h
    split at h
    · rename_i hr
      obtain ⟨e, he, rfl⟩ := Option.map_eq_some_iff.1 h
      exact .inr ⟨f, a, e, rfl, hr, fiberStep_moves he, rfl⟩
    · cases h

/-- A fiber whose turn it is can make its moves. -/
theorem Moves.step (hm : Moves s f a e) (ht : s.Turn f) : s.step (.act f a) = some (s.apply f e) := by
  refine (if_pos ht).trans ?_
  rw [hm.fiberStep, Option.map_some]

/-! ## Reading the state after a step -/

@[simp] theorem apply_rooms : (s.apply f e).rooms = e.rooms := rfl
@[simp] theorem apply_owner : (s.apply f e).owner = e.owner := rfl
@[simp] theorem apply_running : (s.apply f e).running = e.running := rfl
@[simp] theorem apply_next : (s.apply f e).next = s.next := rfl
@[simp] theorem apply_log : (s.apply f e).log = s.log ++ e.events := rfl

@[simp] theorem apply_fibers_self : (s.apply f e).fibers f = e.fiber := by
  simp [Server.apply]

theorem apply_fibers_ne (h : g ≠ f) : (s.apply f e).fibers g = s.fibers g := by
  simp [Server.apply, h]

theorem accepted_fibers_ne (h : g ≠ s.next) : s.accepted.fibers g = s.fibers g := by
  simp [Server.accepted, h]

@[simp] theorem accepted_fibers_self : s.accepted.fibers s.next = ⟨.init, .read⟩ := by
  simp [Server.accepted]

theorem apply_pc_self : (s.apply f e).pc f = e.fiber.control := by
  rw [Server.pc, apply_fibers_self]

theorem apply_pc_ne (h : g ≠ f) : (s.apply f e).pc g = s.pc g := by
  rw [Server.pc, apply_fibers_ne h, Server.pc]

theorem accepted_pc_self : s.accepted.pc s.next = .read := by
  rw [Server.pc, accepted_fibers_self]

theorem accepted_pc_ne (h : g ≠ s.next) : s.accepted.pc g = s.pc g := by
  rw [Server.pc, accepted_fibers_ne h, Server.pc]

/-- **What a step does to `rooms_`**: nothing, or it is the critical section of an accepted
`EnterRoom` or of a `LeaveRoom`. -/
theorem Moves.rooms_cases (hm : Moves s f a e) :
    e.rooms = s.rooms ∨
    (∃ r u next tail, s.pc f = .body (.enterRoom r u) next tail ∧
      (SocketAcl.enterRoom s.rooms r u f).1 = true ∧ e.rooms = (SocketAcl.enterRoom s.rooms r u f).2) ∨
    ∃ r u next tail, s.pc f = .body (.leaveRoom r u) next tail ∧ e.rooms = SocketAcl.leaveRoom s.rooms r u := by
  cases hm with
  | enterRoom hc ha => exact .inr (.inl ⟨_, _, _, _, hc, ha, rfl⟩)
  | leaveRoom hc => exact .inr (.inr ⟨_, _, _, _, hc, rfl⟩)
  | _ => exact .inl rfl

/-- Behind a `lock` a fiber runs the critical section. -/
theorem Moves.run_of_body {call : Call} {next : List Call} {tail : Tail} (hm : Moves s f a e)
    (hc : s.pc f = .body call next tail) : ∃ order type, a = .run order type := by
  cases hm with
  | enterRoom hc' ha | refused hc' ha | leaveRoom hc' | listMissing hc' hr | list hc' hr he
  | broadcastMissing hc' hr | broadcast hc' hr he => exact ⟨_, _, rfl⟩
  | suspend hr hb =>
    rw [hc] at hb
    cases hb
  | _ => simp_all

/-- The critical section of `EnterRoom`, accepted or not. -/
theorem Moves.rooms_enterRoom {r : Int32} {u : Bytes} {next : List Call} {tail : Tail}
    (hm : Moves s f a e) (hc : s.pc f = .body (.enterRoom r u) next tail) :
    e.rooms = (SocketAcl.enterRoom s.rooms r u f).2 := by
  cases hm with
  | enterRoom hc' ha =>
    rw [hc] at hc'
    cases hc'
    rfl
  | refused hc' ha =>
    rw [hc] at hc'
    cases hc'
    exact (enterRoom_refused ha).symm
  | suspend hr hb =>
    rw [hc] at hb
    cases hb
  | _ => simp_all

/-- The critical section of `LeaveRoom`. -/
theorem Moves.rooms_leaveRoom {r : Int32} {u : Bytes} {next : List Call} {tail : Tail}
    (hm : Moves s f a e) (hc : s.pc f = .body (.leaveRoom r u) next tail) :
    e.rooms = SocketAcl.leaveRoom s.rooms r u := by
  cases hm with
  | leaveRoom hc' =>
    rw [hc] at hc'
    cases hc'
    rfl
  | suspend hr hb =>
    rw [hc] at hb
    cases hb
  | _ => simp_all

/-- **What a step does to the mover's session**: nothing, or it reads a request, or it stores
the user ID of a successful login. -/
theorem Moves.session_cases (hm : Moves s f a e) :
    e.fiber.session = s.ses f ∨
    (∃ stack data, a = .recv stack data ∧ s.pc f = .read ∧
      e.fiber.session = ((s.ses f).handle stack (dispatch stack data)).1) ∨
    ∃ u, a = .go ∧ s.pc f = .write [] (.login (some u)) ∧
      e.fiber.session = { s.ses f with currentUserID := u } := by
  cases hm with
  | recv hc h0 h256 => exact .inr (.inl ⟨_, _, rfl, hc, rfl⟩)
  | @setUser user hc =>
    cases user with
    | none => exact .inl rfl
    | some u => exact .inr (.inr ⟨u, rfl, hc, rfl⟩)
  | _ => exact .inl rfl

/-- A fiber that has ended makes no step. -/
theorem Moves.alive (hm : Moves s f a e) : s.pc f ≠ .done := by
  intro hd
  cases hm with
  | suspend hr hb => rw [hd] at hb; cases hb
  | _ => simp_all

/-- **The invariant rule of the chat server**, over an invariant `J` already proved: `I`
holds initially, and accepting a connection and every move of a fiber keep it. -/
theorem chat_inv {C : Server → Label → Prop} {I J : Server → Prop}
    (hJ : ∀ s, chatServer.Reach C s → J s) (h0 : I .init)
    (hacc : ∀ s, J s → I s → s.running = none → I s.accepted)
    (hmove : ∀ s f a e, J s → I s → s.Turn f → C s (.act f a) → Moves s f a e → I (s.apply f e))
    (h : chatServer.Reach C s) : I s := by
  refine h.inv_with hJ h0 ?_
  intro s l t hj _ hi hc hs
  rcases step_cases hs with ⟨-, hr, rfl⟩ | ⟨f, a, e, rfl, hturn, hm, rfl⟩
  · exact hacc s hj hi hr
  · exact hmove s f a e hj hi hturn hc hm

/-- **The invariant rule for one fiber's own state**: a property of each fiber that its own
moves keep. -/
theorem fiber_inv {C : Server → Label → Prop} {J : Server → Prop} {Φ : ConnId → Fiber → Prop}
    (hJ : ∀ s, chatServer.Reach C s → J s) (hdone : ∀ f, Φ f ⟨.init, .done⟩)
    (hread : ∀ f, Φ f ⟨.init, .read⟩)
    (hmove : ∀ s f a e, J s → Φ f (s.fibers f) → C s (.act f a) → Moves s f a e → Φ f e.fiber)
    (h : chatServer.Reach C s) : ∀ f, Φ f (s.fibers f) := by
  refine chat_inv (I := fun s => ∀ f, Φ f (s.fibers f)) hJ hdone ?_ ?_ h
  · intro s _ hi _ g
    rcases eq_or_ne g s.next with rfl | hg
    · rw [accepted_fibers_self]; exact hread _
    · rw [accepted_fibers_ne hg]; exact hi g
  · intro s f a e hj hi _ hc hm g
    rcases eq_or_ne g f with rfl | hg
    · rw [apply_fibers_self]; exact hmove s g a e hj (hi g) hc hm
    · rw [apply_fibers_ne hg]; exact hi g

/-! ## Connections not accepted yet -/

/-- Fibers from `next` on have not started, and hold no entry of `rooms_`. -/
structure Fresh (s : Server) : Prop where
  fibers : ∀ g : ℕ, s.next ≤ g → s.fibers g = ⟨.init, .done⟩
  cells : ∀ r u (c : ℕ), s.rooms.cell r u = some c → c < s.next

theorem Fresh.pc_next (hF : Fresh s) : s.pc s.next = .done := by
  rw [Server.pc, hF.fibers s.next le_rfl]

/-- What does not tell a first read from the end does not see a client come. -/
theorem Fresh.accepted {α : Type} (hF : Fresh s) (m : Control → α) (h : m .read = m .done) (g : ConnId) :
    m (s.accepted.pc g) = m (s.pc g) := by
  rcases eq_or_ne g s.next with rfl | hg
  · rw [accepted_pc_self, hF.pc_next, h]
  · rw [accepted_pc_ne hg]

theorem Moves.lt_next {f : ℕ} (hF : Fresh s) (hm : Moves s f a e) : f < s.next := by
  by_contra hf
  exact hm.alive (by rw [Server.pc, hF.fibers f (by omega)])

theorem fresh_of_reach {C : Server → Label → Prop} (h : chatServer.Reach C s) : Fresh s := by
  refine chat_inv (J := fun _ => True) (fun _ _ => trivial) ⟨fun _ _ => rfl, ?_⟩ ?_ ?_ h
  · intro r u c hc
    simp [Server.init] at hc
  · intro s _ hF _
    refine ⟨?_, ?_⟩
    · intro g hg
      have hne : g ≠ s.next := fun he => by
        simp only [Server.accepted] at hg
        omega
      rw [accepted_fibers_ne hne]
      exact hF.fibers g (by simp [Server.accepted] at hg; omega)
    · intro r u c hc
      have := hF.cells r u c hc
      simp only [Server.accepted]
      omega
  · intro s (f : ℕ) a e _ hF _ _ hm
    have hf := hm.lt_next hF
    refine ⟨?_, ?_⟩
    · intro g hg
      rw [apply_next] at hg
      rw [apply_fibers_ne (Nat.ne_of_gt (Nat.lt_of_lt_of_le hf hg))]
      exact hF.fibers g hg
    · intro r u c hc
      rw [apply_rooms] at hc
      rw [apply_next]
      rcases hm.rooms_cases with h | ⟨r', u', _, _, _, ha, h⟩ | ⟨r', u', _, _, _, h⟩
      · rw [h] at hc
        exact hF.cells r u c hc
      · rw [h, cell_enterRoom ha] at hc
        split at hc
        · obtain rfl := Option.some.inj hc
          exact hf
        · exact hF.cells r u c hc
      · rw [h, cell_leaveRoom] at hc
        split at hc
        · cases hc
        · exact hF.cells r u c hc

end SocketAcl
