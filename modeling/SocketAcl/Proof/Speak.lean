import SocketAcl.Proof.Seats

/-!
# Only members speak

A handler lets a chat request through by its own two variables. `only_members_speak`: they
tell the truth as long as a login under a new ID, a refused entry and another connection's
critical section never leave a handler with a room and an ID whose seat it does not have.
-/

namespace SocketAcl

/-- Whenever a handler reacts to a `ReqRoomChat` by calling `BroadcastMessage`, its connection
has the seat of the room and the user ID it passes. -/
def OnlyMembersSpeak (s : Server) : Prop :=
  ∀ c stack data message t, dispatch stack data = .roomChat message →
    s.step (.act c (.recv stack data)) = some t →
    t.pc c = .lock (broadcastMessage .chat (s.ses c).currentRoomNumber
      (cstr (message.toList ++ stack.behindChat)) (s.ses c).currentUserID) [] .loop →
    t.rooms.cell (s.ses c).currentRoomNumber (s.ses c).currentUserID = some c

/-- The handler of `c` is in its loop, outside `EnterRoom`, with room `r` and user ID `u`: it
lets chat requests through. -/
structure Server.Speaks (s : Server) (c : ConnId) (r : Int32) (u : Bytes) : Prop where
  session : s.ses c = ⟨u, r⟩
  room : r ≠ -1
  user : u ≠ []
  entering : (s.pc c).entering = none
  tail : (s.pc c).tail = .loop
  live : s.pc c ≠ .done

/-- A login under a user ID is stored only where it has the seat in the current room; a refused
entry is one into a seat the connection has already; and a critical section takes no seat of
another connection that speaks from it. -/
def MembersStay (s : Server) : Label → Prop
  | .act f .go => ∀ u, s.pc f = .write [] (.login (some u)) → u ≠ [] →
      (s.ses f).currentRoomNumber ≠ -1 → s.rooms.cell (s.ses f).currentRoomNumber u = some f
  | .act f (.run _ _) =>
      (∀ r u next tail, s.pc f = .body (.enterRoom r u) next tail → s.takes f = none → r ≠ -1 →
        s.rooms.cell r u = some f) ∧
      ∀ r u c, s.takes f = some (r, u) → s.rooms.cell r u = some c → c ≠ f → ¬ s.Speaks c r u
  | _ => True

/-- Whoever speaks has the seat. -/
def SpeakersSit (s : Server) : Prop := ∀ c r u, s.Speaks c r u → s.rooms.cell r u = some c

variable {s t : Server} {f g c : ConnId} {a : Act} {e : Effect} {r r' : Int32} {u u' : Bytes}
  {C : Server → Label → Prop}

/-- A request that keeps the handler in its loop outside `EnterRoom` leaves its session alone,
or leaves it without a user ID. -/
theorem handle_speaks (stack : Stack) (ses : Session) (req : Request)
    (h : (ses.handle stack req).2.entering = none) :
    (ses.handle stack req).1 = ses ∨ (ses.handle stack req).1.currentUserID = [] := by
  cases req with
  | login u t => exact .inl rfl
  | roomEnter n =>
    right
    simp only [Session.handle] at h ⊢
    split
    · rename_i hu
      rw [if_pos hu] at h
      cases h
    · rename_i hu
      exact not_not.1 hu
  | roomChat m =>
    left
    simp only [Session.handle]
    split <;> rfl
  | unknown id => exact .inl rfl

/-- **The mover**: if it speaks after its step, it has the seat. -/
theorem Moves.speaks (hF : FiberOK f (s.fibers f)) (hi : SpeakersSit s) (hC : MembersStay s (.act f a))
    (hm : Moves s f a e) (h : (s.apply f e).Speaks f r u) : e.rooms.cell r u = some f := by
  have hses : e.fiber.session = ⟨u, r⟩ := by
    have := h.session
    rwa [Server.ses, apply_fibers_self] at this
  have hent : e.fiber.control.entering = none := by
    have := h.entering
    rwa [apply_pc_self] at this
  have htail : e.fiber.control.tail = .loop := by
    have := h.tail
    rwa [apply_pc_self] at this
  -- what is left to show where the step keeps the session
  have hold : s.ses f = ⟨u, r⟩ → (s.pc f).entering = none → (s.pc f).tail = .loop →
      s.rooms.cell r u = some f :=
    fun h1 h2 h3 => hi f r u ⟨h1, h.room, h.user, h2, h3, hm.alive⟩
  cases hm with
  | @recv stack data hc h0 h256 =>
    rcases handle_speaks stack (s.ses f) (dispatch stack data) hent with hq | hq
    · refine hold ?_ ?_ ?_
      · rw [← hq]
        exact hses
      · rw [hc]; rfl
      · rw [hc]; rfl
    · rw [show ((s.ses f).handle stack (dispatch stack data)).1 = _ from hses] at hq
      exact absurd hq h.user
  | eof hc =>
    simp only [Server.goto, Session.finish] at htail
    split at htail <;> cases htail
  | enterRoom hc ha =>
    have hs := (hF.entering _ _ (by rw [show (s.fibers f).control = _ from hc]; rfl)).1
    rw [show (s.fibers f).session = ⟨u, r⟩ from hses] at hs
    cases hs
    simp [cell_enterRoom ha]
  | refused hc ha =>
    have hs := (hF.entering _ _ (by rw [show (s.fibers f).control = _ from hc]; rfl)).1
    rw [show (s.fibers f).session = ⟨u, r⟩ from hses] at hs
    cases hs
    -- the room was full: it speaks only where it sat before
    have ht : s.takes f = none := by
      have hn : ¬ (s.rooms.row r).size < 2 := fun hlt => by
        rw [enterRoom_accepted_iff.2 hlt] at ha
        cases ha
      simp only [Server.takes, hc, if_neg hn]
    exact hC.1 r u _ _ hc ht h.room
  | leaveRoom hc =>
    have hx := (hF.leaving _ _ (by rw [show (s.fibers f).control = _ from hc]; rfl)).2.2.2
    rw [show (s.fibers f).control = _ from hc] at hx
    exact absurd (htail.symm.trans hx) Tail.noConfusion
  | @setUser user hc =>
    cases user with
    | none =>
      refine hold hses ?_ ?_ <;> rw [hc] <;> rfl
    | some u' =>
      -- a new user ID speaks in the room asked for before the login
      have hse : ({ s.ses f with currentUserID := u' } : Session) = ⟨u, r⟩ := hses
      have hr : (s.ses f).currentRoomNumber = r := congrArg Session.currentRoomNumber hse
      have hu : u' = u := congrArg Session.currentUserID hse
      subst hu
      have := hC u' hc h.user (by rw [hr]; exact h.room)
      rwa [hr] at this
  | delete hc => exact absurd (by rw [apply_pc_self]; rfl) h.live
  | @lock call next tail hc ho =>
    refine hold hses ?_ ?_
    · rw [hc]
      cases call <;> first | rfl | cases hent
    · rw [hc]
      exact htail
  | @unlock cur next tail hc =>
    refine hold hses (by rw [hc]; rfl) ?_
    rw [hc]
    cases next with
    | nil => cases tail with
      | loop => rfl
      | exit => cases htail
    | cons call next => exact htail
  | suspend hr hb => exact hold hses hent htail
  | loginOk hc _ | loginFailed hc _ => refine hold hses ?_ ?_ <;> rw [hc] <;> rfl
  | listMissing hc _ | list hc _ _ | broadcastMissing hc _ | broadcast hc _ _ | write hc | written hc
  | sendPart hc _ _ _ | sendAll hc _ _ | sendFail hc =>
    refine hold hses (by rw [hc]; rfl) ?_
    rw [hc]
    exact htail

theorem speakersSit_of_reach (h : chatServer.Reach MembersStay s) : SpeakersSit s := by
  refine chat_inv (J := fun s => ∀ f, FiberOK f (s.fibers f)) (fun s hs => fiberOK_of_reach hs) ?_ ?_ ?_ h
  · exact fun c r u h => absurd rfl h.live
  · intro s _ hi _ c r u h
    rcases eq_or_ne c s.next with rfl | hcn
    · have hs := h.session
      rw [Server.ses, accepted_fibers_self] at hs
      cases hs
      exact absurd rfl h.user
    · have hfib : s.accepted.fibers c = s.fibers c := accepted_fibers_ne hcn
      refine hi c r u ⟨?_, h.room, h.user, ?_, ?_, ?_⟩
      · rw [Server.ses, ← hfib]; exact h.session
      · rw [Server.pc, ← hfib]; exact h.entering
      · rw [Server.pc, ← hfib]; exact h.tail
      · rw [Server.pc, ← hfib]; exact h.live
  · intro s f a e hF hi _ hC hm c r u h
    rcases eq_or_ne c f with rfl | hcf
    · exact hm.speaks (hF c) hi hC h
    · have hfib : (s.apply f e).fibers c = s.fibers c := apply_fibers_ne hcf
      have hsp : s.Speaks c r u := by
        refine ⟨?_, h.room, h.user, ?_, ?_, ?_⟩
        · rw [Server.ses, ← hfib]; exact h.session
        · rw [Server.pc, ← hfib]; exact h.entering
        · rw [Server.pc, ← hfib]; exact h.tail
        · rw [Server.pc, ← hfib]; exact h.live
      -- nobody who speaks loses the seat to another
      have hcell := hi c r u hsp
      rcases hm.seat_kept hcell with hk | ht
      · exact hk
      · obtain ⟨order, type, call, next, tail, rfl, -, -⟩ := hm.takes_run ht
        exact absurd hsp (hC.2 r u c ht hcell hcf)

/-- **Only members speak**, in every run whose members stay. -/
theorem only_members_speak (h : chatServer.Reach MembersStay s) : OnlyMembersSpeak s := by
  intro c stack data message t hd hs hpc
  rcases step_cases hs with ⟨hl, -⟩ | ⟨f, a, e, hl, -, hm, rfl⟩
  · cases hl
  cases hl
  cases hm with
  | recv hc h0 h256 =>
    rw [apply_pc_self] at hpc
    simp only [hd, Session.handle] at hpc
    split at hpc
    · rename_i hg
      refine speakersSit_of_reach h c _ _ ⟨rfl, hg.1, hg.2, ?_, ?_, ?_⟩ <;> rw [hc]
      · rfl
      · rfl
      · exact Control.noConfusion
    · cases hpc

theorem membersStay_first {l : Label} (h : Script.first s l = true) (hs : s.step l = some t) :
    MembersStay s l := by
  unfold MembersStay
  split
  · intro u hpc _ hr
    exact absurd (Script.first_store h hpc).2 hr
  · refine ⟨?_, ?_⟩
    · intro r u next tail hpc ht _
      have hrooms := Script.first_run h hpc (.inl ⟨r, u, rfl⟩)
      rw [Server.takes, hpc, hrooms] at ht
      cases ht
    · intro r u c ht hc
      rcases step_cases hs with ⟨hl, -⟩ | ⟨f, a, e, hl, -, hm, -⟩
      · cases hl
      · cases hl
        obtain ⟨_, _, call, next, tail, -, hpc, hl⟩ := hm.takes_run ht
        rw [Script.first_run h hpc hl] at hc
        simp at hc
  · trivial

/-- A client logs in and enters room 1: its chat requests are those of a member. -/
theorem only_members_speak_entered : ∃ s, chatServer.Reach MembersStay s ∧
    s.rooms.cell 1 (ascii "alice") = some 0 ∧ OnlyMembersSpeak s := by
  obtain ⟨s, hs, hc, -⟩ := alice_enters (C := MembersStay) fun _ _ _ => membersStay_first
  exact ⟨s, hs, hc, only_members_speak hs⟩

/-- **An outsider speaks**: a client asks for room 1 before it logs in, which only sets its
`currentRoomNumber`, and is let through after the login although it never entered. -/
theorem outsider_speaks : ∃ s, chatServer.Reachable s ∧ s.rooms = ∅ ∧ ¬ OnlyMembersSpeak s := by
  let hi : Act := .recv .clear (Script.chatPacket (ascii "hi"))
  obtain ⟨s, hs, hP⟩ := System.exists_reachable (S := chatServer) (P := fun s =>
      decide (s.rooms = ∅ ∧ s.ses 0 = ⟨ascii "alice", 1⟩) && (s.step (.act 0 hi)).any fun t =>
        decide (t.rooms = ∅ ∧ t.pc 0 = .lock (broadcastMessage .chat 1 (ascii "hi") (ascii "alice")) [] .loop))
    ([.accept, Script.recv 0 (Script.enterPacket 1)] ++ Script.loginAlice 0) (by decide +kernel)
  simp only [Bool.and_eq_true, decide_eq_true_eq, Option.any_eq_true] at hP
  obtain ⟨⟨hrooms, hses⟩, t, ht, hrt, hpc⟩ := hP
  refine ⟨s, hs, hrooms, fun h => ?_⟩
  have hd : (match dispatch .clear (Script.chatPacket (ascii "hi")) with
      | .roomChat message => decide (cstr (message.toList ++ Stack.clear.behindChat) = ascii "hi")
      | _ => false) = true := by decide +kernel
  cases hreq : dispatch .clear (Script.chatPacket (ascii "hi")) with
  | login userID authToken => simp [hreq] at hd
  | roomEnter n => simp [hreq] at hd
  | unknown id => simp [hreq] at hd
  | roomChat message =>
    simp only [hreq, decide_eq_true_eq] at hd
    have hseat := h 0 _ _ _ t hreq ht (by rw [hses, hd]; exact hpc)
    rw [hrt] at hseat
    simp at hseat

end SocketAcl
