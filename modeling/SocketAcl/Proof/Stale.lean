import SocketAcl.Proof.Seats

/-!
# Stale connections

A handler on its way out removes one seat, the one its session names, and then deletes its
connection. `no_stale_connection`: if that is its only seat whenever a handler leaves its
loop, no seat and no pending write ever belongs to a deleted connection.

* `Departing`: a handler past its loop has no seat but the one it is about to give up.
* `Aimed`: a write goes to the handler's own connection, or to a seat the mutex keeps in place.
-/

namespace SocketAcl

/-- No seat, and no write in progress or about to be issued, belongs to a deleted connection. -/
def NoStale (s : Server) : Prop :=
  (∀ r u c, s.rooms.cell r u = some c → s.pc c ≠ .done) ∧
    ∀ f, ∀ c ∈ (s.pc f).targets, s.pc c ≠ .done

/-- A handler that leaves its loop has no seat but the one its session names, and that one is
not in room -1. -/
def LeavesOwnSeat (s : Server) : Label → Prop
  | .act f .eof => ∀ r u, s.rooms.cell r u = some f → s.ses f = ⟨u, r⟩ ∧ r ≠ -1
  | _ => True

/-- Connections with a seat are live; on the way out they have no seat but the one their
`LeaveRoom` is about to remove. -/
def Departing (s : Server) : Prop :=
  ∀ r u c, s.rooms.cell r u = some c →
    s.pc c ≠ .done ∧ ((s.pc c).tail = .exit → (s.pc c).leaving = some (r, u))

/-- Writes go to the fiber's own connection, or under the mutex to a seat. -/
def Aimed (s : Server) : Prop :=
  ∀ f, ∀ c ∈ (s.pc f).targets,
    c = f ∨ (s.pc f).holds = true ∧ ∃ r u, s.rooms.cell r u = some c

variable {s t : Server} {f g c : ConnId} {a : Act} {e : Effect} {r r' : Int32} {u u' : Bytes}
  {C : Server → Label → Prop}

/-! ## Handlers on their way out -/

/-- A handler gets on its way out by a read that fails. -/
theorem Moves.tail_exit (hm : Moves s f a e) (h : e.fiber.control.tail = .exit) :
    a = .eof ∨ (s.pc f).tail = .exit := by
  cases hm with
  | @recv stack data hc h0 h256 =>
    rcases handle_control stack (s.ses f) (dispatch stack data) with ⟨u, t, hq⟩ | hq | ⟨call, hq, -⟩ <;>
      rw [hq] at h <;> cases h
  | eof hc => exact .inl rfl
  | suspend hr hb => exact .inr h
  | @unlock cur next tail hc =>
    right
    rw [hc]
    cases next with
    | nil => cases tail with
      | loop => cases h
      | exit => rfl
    | cons call next => exact h
  | setUser hc => cases h
  | loginOk hc hr => cases h
  | loginFailed hc hr => cases h
  | delete hc => cases h
  | lock hc _ | enterRoom hc _ | refused hc _ | leaveRoom hc | listMissing hc _ | list hc _ _
  | broadcastMissing hc _ | broadcast hc _ _ | write hc | written hc | sendPart hc _ _ _
  | sendAll hc _ _ | sendFail hc =>
    rw [hc]
    exact .inr h

/-- A fiber ends at its `delete`. -/
theorem Moves.done (hm : Moves s f a e) (h : e.fiber.control = .done) : s.pc f = .delete := by
  cases hm with
  | @recv stack data hc h0 h256 =>
    rcases handle_control stack (s.ses f) (dispatch stack data) with ⟨u, t, hq⟩ | hq | ⟨call, hq, -⟩ <;>
      rw [hq] at h <;> cases h
  | eof hc =>
    simp only [Server.goto, Session.finish] at h
    split at h <;> cases h
  | suspend hr hb =>
    rw [show s.pc f = .done from h] at hb
    cases hb
  | @unlock cur next tail hc =>
    cases next with
    | nil => cases tail <;> cases h
    | cons call next => cases h
  | delete hc => exact hc
  | _ => cases h

/-- From a `LeaveRoom` a fiber goes on to its critical section, which empties the seat. -/
theorem Moves.leaving (hm : Moves s f a e) (h : (s.pc f).leaving = some (r, u)) :
    e.fiber.control.leaving = some (r, u) ∨ e.rooms.cell r u = none := by
  unfold Control.leaving at h
  split at h
  · rename_i r' u' next tail hc
    left
    cases hm with
    | lock hc' ho =>
      rw [hc] at hc'
      cases hc'
      exact h
    | suspend hr hb =>
      change (s.pc f).leaving = _
      rw [hc]
      exact h
    | _ => simp_all
  · rename_i r' u' next tail hc
    obtain ⟨rfl, rfl⟩ := Prod.mk.inj (Option.some.inj h)
    right
    rw [hm.rooms_leaveRoom hc, cell_leaveRoom]
    simp
  · cases h

theorem departing_of_reach (h : chatServer.Reach LeavesOwnSeat s) : Departing s := by
  refine chat_inv (J := fun s => Fresh s ∧ Seated s.rooms ∧ ∀ f, FiberOK f (s.fibers f))
    (fun s hs => ⟨fresh_of_reach hs, seated_of_reach hs, fiberOK_of_reach hs⟩) ?_ ?_ ?_ h
  · intro r u c hc
    simp [Server.init] at hc
  · rintro s ⟨hF, -⟩ hi - r u c hc
    have hne : c ≠ s.next := Nat.ne_of_lt (hF.cells r u c hc)
    rw [accepted_pc_ne hne]
    exact hi r u c hc
  · rintro s f a e ⟨-, hS, hF⟩ hi - hC hm r u c hc
    rw [apply_rooms] at hc
    -- only the mover's own seats are in question
    rcases eq_or_ne c f with rfl | hcf
    swap
    · rw [apply_pc_ne hcf]
      rcases hm.seat_origin hc with h | ⟨rfl, -⟩
      · exact hi r u c h
      · exact absurd rfl hcf
    rw [apply_pc_self]
    rcases hm.seat_origin hc with hold | ⟨-, -, next, tail, hpc⟩
    · obtain ⟨-, hleave⟩ := hi r u c hold
      refine ⟨?_, ?_⟩
      · intro hd
        have hpc := hm.done hd
        rw [hpc] at hleave
        cases hleave rfl
      · intro hx
        rcases hm.tail_exit hx with rfl | hx'
        · -- out of the loop: the seat is the one `LeaveRoom` is called for
          obtain ⟨hs, hr⟩ := hC r u hold
          cases hm with
          | eof hpc =>
            have hu := hS.named r u c hold
            change (s.ses c).finish.leaving = _
            simp only [Session.finish, hs, ne_eq, hr, hu, not_false_eq_true, and_self, if_true]
            rfl
        · rcases hm.leaving (hleave hx') with h | h
          · exact h
          · rw [h] at hc
            cases hc
    · -- a fresh seat: `EnterRoom` was called from inside the loop
      have htail := ((hF c).entering r u (by rw [show (s.fibers c).control = _ from hpc]; rfl)).2.2
      refine ⟨?_, ?_⟩
      · intro hd
        have hpc' := hm.done hd
        rw [hpc] at hpc'
        cases hpc'
      · intro hx
        rcases hm.tail_exit hx with rfl | hx'
        · cases hm with
          | eof hpc' =>
            rw [hpc] at hpc'
            cases hpc'
        · rw [show (s.fibers c).control.tail = .exit from hx'] at htail
          cases htail

/-! ## Where writes go -/

/-- The connections a fiber writes to after its step: those it had, its own, or seats. -/
theorem Moves.targets (hm : Moves s f a e) (h : c ∈ e.fiber.control.targets) :
    c ∈ (s.pc f).targets ∧ (e.fiber.control.holds = true ↔ (s.pc f).holds = true) ∨ c = f ∨
      e.fiber.control.holds = true ∧ ∃ r u, s.rooms.cell r u = some c := by
  cases hm with
  | @recv stack data hc h0 h256 =>
    rcases handle_control stack (s.ses f) (dispatch stack data) with ⟨u, t, hq⟩ | hq | ⟨call, hq, -⟩ <;>
      rw [hq] at h <;> cases h
  | eof hc =>
    simp only [Server.goto, Session.finish] at h
    split at h <;> cases h
  | loginOk hc hr => exact .inr (.inl (List.mem_singleton.1 h))
  | loginFailed hc hr => exact .inr (.inl (List.mem_singleton.1 h))
  | refused hc ha => exact .inr (.inl (List.mem_singleton.1 h))
  | @broadcast site r buffer next tail order type hc hr he =>
    -- the writes of a `Broadcast` go to the members of its room
    right; right
    simp only [Server.goto, Control.targets, List.map_map, List.mem_map, Function.comp] at h
    obtain ⟨⟨u, c'⟩, hmem, rfl⟩ := h
    exact ⟨rfl, r, u, he.mem_iff.1 hmem⟩
  | write hc | sendPart hc _ _ _ =>
    left
    rw [hc]
    exact ⟨h, Iff.rfl⟩
  | sendAll hc _ _ | sendFail hc =>
    left
    rw [hc]
    exact ⟨List.mem_cons_of_mem _ h, Iff.rfl⟩
  | suspend hr hb => exact .inl ⟨h, Iff.rfl⟩
  | @unlock cur next tail hc =>
    cases next with
    | nil => cases tail <;> cases h
    | cons call next => cases h
  | _ => cases h

/-- A step that leaves writes to be issued leaves `rooms_` alone. -/
theorem Moves.targets_rooms (hm : Moves s f a e) (h : e.fiber.control.targets ≠ []) :
    e.rooms = s.rooms := by
  cases hm with
  | enterRoom hc ha => exact absurd rfl h
  | leaveRoom hc => exact absurd rfl h
  | _ => rfl

theorem aimed_of_reach (h : chatServer.Reach C s) : Aimed s := by
  refine chat_inv (J := fun s => Fresh s ∧ Locks s)
    (fun s hs => ⟨fresh_of_reach hs, locks_of_reach hs⟩) ?_ ?_ ?_ h
  · intro f c hc
    cases hc
  · rintro s ⟨hF, -⟩ hi - g c hc
    rw [hF.accepted Control.targets rfl] at hc
    rw [hF.accepted Control.holds rfl]
    exact hi g c hc
  · rintro s f a e ⟨-, hL⟩ hi - - hm g c hc
    rcases eq_or_ne g f with rfl | hg
    · rw [apply_pc_self] at hc ⊢
      rw [apply_rooms, hm.targets_rooms (List.ne_nil_of_mem hc)]
      rcases hm.targets hc with ⟨hold, hh⟩ | h | h
      · rw [hh]
        exact hi g c hold
      · exact .inl h
      · exact .inr h
    · rw [apply_pc_ne hg] at hc ⊢
      rcases hi g c hc with h | ⟨hh, r, u, h⟩
      · exact .inl h
      -- a writer that holds the mutex keeps the room as it was
      · rw [apply_rooms, hL.rooms_fixed hm hh hg]
        exact .inr ⟨hh, r, u, h⟩

/-- **No stale connection**, in every run whose handlers leave their own seat and no other. -/
theorem no_stale_connection (h : chatServer.Reach LeavesOwnSeat s) : NoStale s := by
  have hD := departing_of_reach h
  refine ⟨fun r u c hc => (hD r u c hc).1, fun f c hc => ?_⟩
  rcases aimed_of_reach h f c hc with rfl | ⟨-, r, u, hcell⟩
  · intro hd
    rw [hd] at hc
    cases hc
  · exact (hD r u c hcell).1

/-- A test for `LeavesOwnSeat`. -/
def leavesOwnSeat (s : Server) : Label → Bool
  | .act f .eof => Script.seats s f fun r u => decide (s.ses f = ⟨u, r⟩ ∧ r ≠ -1)
  | _ => true

theorem leavesOwnSeat_of_test {l : Label} (h : leavesOwnSeat s l = true) : LeavesOwnSeat s l := by
  unfold LeavesOwnSeat
  split
  · simp only [leavesOwnSeat] at h
    intro r u hc
    exact of_decide_eq_true (Script.of_seats h hc)
  · trivial

/-- "bob" has left room 1 and is gone, "carol" sits there with "alice", and nothing is stale. -/
theorem no_stale_connection_entered : ∃ s, chatServer.Reach LeavesOwnSeat s ∧ s.pc 1 = .done ∧
    s.rooms.cell 1 (ascii "alice") = some 0 ∧ s.rooms.cell 1 (ascii "carol") = some 2 ∧ NoStale s := by
  obtain ⟨s, hs, hP⟩ := System.exists_reach (S := chatServer) (C := LeavesOwnSeat) (T := leavesOwnSeat)
    (P := fun s => decide (s.pc 1 = .done ∧ s.rooms.cell 1 (ascii "alice") = some 0 ∧
      s.rooms.cell 1 (ascii "carol") = some 2)) Script.carolComes (fun _ _ _ h _ => leavesOwnSeat_of_test h)
    (by decide +kernel)
  obtain ⟨hbob, halice, hcarol⟩ := of_decide_eq_true hP
  exact ⟨s, hs, hbob, halice, hcarol, no_stale_connection hs⟩

/-- **A stale connection**: a client enters room 1, then room 2, and leaves; its seat in room 1
outlives it, and the user list of the next client to enter is written to the deleted stream. -/
theorem stale_connection : ∃ s, chatServer.Reachable s ∧ s.pc 0 = .done ∧
    s.rooms.cell 1 (ascii "alice") = some 0 ∧ 0 ∈ (s.pc 1).targets ∧ ¬ NoStale s := by
  obtain ⟨s, hs, hP⟩ := System.exists_reachable (S := chatServer) (P := fun s => decide
      (s.pc 0 = .done ∧ s.rooms.cell 1 (ascii "alice") = some 0 ∧ 0 ∈ (s.pc 1).targets))
    (Script.aliceEnters ++ Script.enter 0 2 [(ascii "alice", 0)] ++ Script.hangUp 0 ++ [.accept] ++
      Script.login 1 (ascii "bob") (ascii "pw") (.bulk (ascii "pw")) "Login Success!" ++
      [Script.recv 1 (Script.enterPacket 1), Script.go 1, Script.run 1 [], Script.go 1, Script.go 1,
        Script.run 1 [(ascii "alice", 0), (ascii "bob", 1)], Script.go 1, Script.go 1,
        Script.run 1 [(ascii "alice", 0), (ascii "bob", 1)]]) (by decide +kernel)
  obtain ⟨hd, hc, ht⟩ := of_decide_eq_true hP
  exact ⟨s, hs, hd, hc, ht, fun h => h.1 1 _ 0 hc hd⟩

end SocketAcl
