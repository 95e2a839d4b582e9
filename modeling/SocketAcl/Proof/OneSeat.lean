import SocketAcl.Proof.Stale

/-!
# One seat for a connection

A handler knows one seat, the one its session names, and gives up no other.

* `StaysPut`: a connection that has a seat asks for no other room, logs in under no other ID and does not
  hang up in room -1, which it would not leave.
* `SeatKnown`: then its seats are where its session says (`seatKnown_of_reach`).
* `one_seat`: so it has one seat at most. What `rooms_` holds is an address, and `new` may give a
  deleted connection's to a later one: no seat is left behind under it (`leavesOwnSeat_of_reach`).
-/

namespace SocketAcl

/-- The connections that are live have different addresses; a deleted one's may be used again. -/
def Placed {α : Type*} (address : ConnId → α) (s : Server) : Prop :=
  ∀ c d, s.pc c ≠ .done → s.pc d ≠ .done → address c = address d → c = d

/-- `rooms_` has the address of `c` under `(r, u)`. -/
def SitsAt {α : Type*} (address : ConnId → α) (s : Server) (c : ConnId) (r : Int32) (u : Bytes) : Prop :=
  ∃ d, s.rooms.cell r u = some d ∧ address d = address c

/-- A live connection has at most one seat, and a handler that is reading knows it. -/
def OneSeat {α : Type*} (address : ConnId → α) (s : Server) : Prop :=
  ∀ c, s.pc c ≠ .done →
    (∀ r u r' u', SitsAt address s c r u → SitsAt address s c r' u' → r = r' ∧ u = u') ∧
    (s.pc c = .read → ∀ r u, SitsAt address s c r u →
      (s.ses c).currentRoomNumber = r ∧ (s.ses c).currentUserID = u)

/-- A connection that has a seat asks for no other room, logs in under no other ID and does not hang up in
room -1. -/
def StaysPut (s : Server) : Label → Prop
  | .act f (.recv stack data) =>
    ∀ n, dispatch stack data = .roomEnter n → ∀ r u, s.rooms.cell r u = some f → r = n
  | .act f .go =>
    ∀ u', s.pc f = .write [] (.login (some u')) → ∀ r u, s.rooms.cell r u = some f → u = u'
  | .act f .eof => ∀ u, s.rooms.cell (-1) u ≠ some f
  | _ => True

variable {s t : Server} {f g c : ConnId} {a : Act} {e : Effect} {r r' : Int32} {u u' : Bytes}
  {C : Server → Label → Prop}

/-- The seats of a live connection are where its session says. -/
def SeatKnown (s : Server) : Prop :=
  ∀ r u c, s.rooms.cell r u = some c → s.pc c ≠ .done → s.ses c = ⟨u, r⟩

theorem Moves.seat_session (hF : FiberOK f (s.fibers f)) (hC : StaysPut s (.act f a))
    (hi : SeatKnown s) (hm : Moves s f a e) (h : e.rooms.cell r u = some f) :
    e.fiber.session = ⟨u, r⟩ := by
  rcases hm.seat_origin h with hold | ⟨-, -, next, tail, hc⟩
  · have hs := hi r u f hold hm.alive
    rcases hm.session_cases with he | ⟨stack, data, rfl, hc, he⟩ | ⟨u', rfl, hc, he⟩
    · rw [he, hs]
    -- a request for a room: for the one it sits in, as it stays put
    · rcases handle_session stack (s.ses f) (dispatch stack data) with hq | ⟨n, hn, hq⟩
      · rw [he, hq, hs]
      · have hrn := hC n hn r u hold
        rw [he, hq, hs, hrn]
    -- a login: under the ID it sits under
    · have huu := hC u' hc r u hold
      rw [he, hs, huu]
  · -- a fresh seat: `EnterRoom` was called with the session's own room and user
    have hs := (hF.entering r u (by rw [show (s.fibers f).control = _ from hc]; rfl)).1
    rcases hm.session_cases with he | ⟨stack, data, -, hc', -⟩ | ⟨u', -, hc', -⟩
    · rw [he]
      exact hs
    · rw [hc] at hc'
      cases hc'
    · rw [hc] at hc'
      cases hc'

theorem seatKnown_of_reach (h : chatServer.Reach StaysPut s) : SeatKnown s := by
  refine chat_inv (J := fun s => Fresh s ∧ ∀ f, FiberOK f (s.fibers f))
    (fun s hs => ⟨fresh_of_reach hs, fiberOK_of_reach hs⟩) ?_ ?_ ?_ h
  · intro r u c hc
    simp [Server.init] at hc
  · rintro s ⟨hF, -⟩ hi - r u c hc hd
    have hne : c ≠ s.next := Nat.ne_of_lt (hF.cells r u c hc)
    rw [accepted_pc_ne hne] at hd
    rw [Server.ses, accepted_fibers_ne hne]
    exact hi r u c hc hd
  · rintro s f a e ⟨-, hF⟩ hi - hC hm r u c hc hd
    rcases eq_or_ne c f with rfl | hcf
    · rw [Server.ses, apply_fibers_self]
      exact hm.seat_session (hF c) hC hi hc
    · rw [apply_pc_ne hcf] at hd
      rw [Server.ses, apply_fibers_ne hcf]
      rcases hm.seat_origin hc with h | ⟨rfl, -⟩
      · exact hi r u c h hd
      · exact absurd rfl hcf

/-- **No seat is left behind**: who stays put leaves its own seat, and had no other. -/
theorem leavesOwnSeat_of_reach (h : chatServer.Reach StaysPut s) : chatServer.Reach LeavesOwnSeat s := by
  induction h with
  | init => exact .init
  | @step s t l hr hC hs ih =>
    refine .step ih ?_ hs
    unfold LeavesOwnSeat
    split
    · intro r u hc
      -- so far every seat is a live connection's, and known
      have hlive := (departing_of_reach ih r u _ hc).1
      refine ⟨seatKnown_of_reach hr r u _ hc hlive, ?_⟩
      rintro rfl
      exact hC u hc
    · trivial

/-- **One seat per connection**, in every run whose connections stay put. -/
theorem one_seat {α : Type*} {address : ConnId → α} (h : chatServer.Reach StaysPut s) (haddress : Placed address s) :
    OneSeat address s := by
  have hknown : ∀ c, s.pc c ≠ .done → ∀ r u, SitsAt address s c r u → s.ses c = ⟨u, r⟩ := by
    rintro c hd r u ⟨d, hcell, had⟩
    have hlive := (departing_of_reach (leavesOwnSeat_of_reach h) r u d hcell).1
    obtain rfl := haddress d c hlive hd had
    exact seatKnown_of_reach h r u d hcell hd
  intro c hd
  refine ⟨?_, ?_⟩
  · intro r u r' u' h1 h2
    have hs := hknown c hd r u h1
    rw [hknown c hd r' u' h2] at hs
    cases hs
    exact ⟨rfl, rfl⟩
  · intro _ r u h1
    rw [hknown c hd r u h1]
    exact ⟨rfl, rfl⟩

/-- A test for `StaysPut`. -/
def staysPut (s : Server) : Label → Bool
  | .act f (.recv stack data) => match dispatch stack data with
    | .roomEnter n => Script.seats s f fun r _ => decide (r = n)
    | _ => true
  | .act f .go => match s.pc f with
    | .write [] (.login (some u')) => Script.seats s f fun _ u => decide (u = u')
    | _ => true
  | .act f .eof => Script.seats s f fun r _ => decide (r ≠ -1)
  | _ => true

theorem staysPut_of_test {l : Label} (h : staysPut s l = true) : StaysPut s l := by
  unfold StaysPut
  split
  · intro n hn r u hc
    simp only [staysPut, hn] at h
    exact of_decide_eq_true (Script.of_seats h hc)
  · intro u' hpc r u hc
    simp only [staysPut, hpc] at h
    exact of_decide_eq_true (Script.of_seats h hc)
  · simp only [staysPut] at h
    intro u hc
    exact of_decide_eq_true (Script.of_seats h hc) rfl
  · trivial

/-- "alice" and "carol" sit in room 1, each on one seat, where "carol" has the address that was "bob"'s. -/
theorem one_seat_entered : ∃ s, chatServer.Reach StaysPut s ∧ s.rooms.cell 1 (ascii "alice") = some 0 ∧
    s.rooms.cell 1 (ascii "carol") = some 2 ∧ OneSeat (fun c => if c = 2 then 1 else c) s := by
  obtain ⟨s, hs, hP⟩ := System.exists_reach (S := chatServer) (C := StaysPut) (T := staysPut) (P := fun s =>
    decide (s.rooms.cell 1 (ascii "alice") = some 0 ∧ s.rooms.cell 1 (ascii "carol") = some 2 ∧
      s.pc 1 = .done ∧ s.next = 3)) Script.carolComes (fun _ _ _ h _ => staysPut_of_test h) (by decide +kernel)
  obtain ⟨halice, hcarol, hbob, hnext⟩ := of_decide_eq_true hP
  refine ⟨s, hs, halice, hcarol, one_seat hs ?_⟩
  -- the live connections are 0 and 2
  have hlive : ∀ c, s.pc c ≠ .done → c = 0 ∨ c = 2 := by
    intro (c : ℕ) hc
    have hlt : c < s.next := by
      by_contra hge
      exact hc (by rw [Server.pc, (fresh_of_reach hs).fibers c (by omega)])
    have hne : c ≠ 1 := by
      rintro rfl
      exact hc hbob
    show c = 0 ∨ c = 2
    omega
  intro c d hc hd heq
  rcases hlive c hc with rfl | rfl <;> rcases hlive d hd with rfl | rfl
  · rfl
  · exact absurd heq (by decide)
  · exact absurd heq (by decide)
  · rfl

/-- **A connection with two seats**: it enters room 1 and then room 2. -/
theorem two_seats : ∃ s, chatServer.Reachable s ∧ ¬ OneSeat (fun c => c) s := by
  obtain ⟨s, hs, hP⟩ := System.exists_reachable (S := chatServer) (P := fun s =>
      decide (s.pc 0 ≠ .done) && decide (s.rooms.cell 1 (ascii "alice") = some 0) &&
        decide (s.rooms.cell 2 (ascii "alice") = some 0))
    (Script.aliceEnters ++ Script.enter 0 2 [(ascii "alice", 0)]) (by decide +kernel)
  simp only [Bool.and_eq_true, decide_eq_true_eq] at hP
  refine ⟨s, hs, fun h => ?_⟩
  have := ((h 0 hP.1.1).1 1 _ 2 _ ⟨0, hP.1.2, rfl⟩ ⟨0, hP.2, rfl⟩).1
  exact absurd this (by decide)

end SocketAcl
