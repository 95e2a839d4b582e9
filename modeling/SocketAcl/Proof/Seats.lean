import SocketAcl.Proof.Script

/-!
# Seats: the entries of `rooms_`

An entry `(r, u) ↦ c` of `rooms_` is the seat of connection `c` in room `r` under the user ID
`u`.

* `Server.takes`: the seat that a fiber's critical section is about to write or erase.
* `Moves.seat_kept`, `Moves.seat_origin`: what a step does to a seat.
* `Seated`: seats are under nonempty user IDs without NULs.
-/

namespace SocketAcl

/-- The seat that fiber `f` writes or erases in its next step. -/
def Server.takes (s : Server) (f : ConnId) : Option (Int32 × Bytes) :=
  match s.pc f with
  | .body (.enterRoom r u) _ _ => if (s.rooms.row r).size < 2 then some (r, u) else none
  | .body (.leaveRoom r u) _ _ => some (r, u)
  | _ => none

variable {s t : Server} {f g c : ConnId} {a : Act} {e : Effect} {r r' : Int32} {u u' : Bytes}
  {C : Server → Label → Prop}

/-- **A seat goes only by being taken.** -/
theorem Moves.seat_kept (hm : Moves s f a e) (h : s.rooms.cell r u = some c) :
    e.rooms.cell r u = some c ∨ s.takes f = some (r, u) := by
  rcases hm.rooms_cases with hr | ⟨r', u', next, tail, hc, ha, hr⟩ | ⟨r', u', next, tail, hc, hr⟩
  · rw [hr]
    exact .inl h
  · rw [hr, cell_enterRoom ha]
    split
    · rename_i he
      obtain ⟨rfl, rfl⟩ := he
      have hs := enterRoom_accepted_iff.1 ha
      right
      simp only [Server.takes, hc, if_pos hs]
    · exact .inl h
  · rw [hr, cell_leaveRoom]
    split
    · rename_i he
      obtain ⟨rfl, rfl⟩ := he
      right
      simp only [Server.takes, hc]
    · exact .inl h

/-- **A seat comes only from an accepted entry** of its own connection. -/
theorem Moves.seat_origin (hm : Moves s f a e) (h : e.rooms.cell r u = some c) :
    s.rooms.cell r u = some c ∨ c = f ∧ s.takes f = some (r, u) ∧
      ∃ next tail, s.pc f = .body (.enterRoom r u) next tail := by
  rcases hm.rooms_cases with hr | ⟨r', u', next, tail, hc, ha, hr⟩ | ⟨r', u', next, tail, hc, hr⟩
  · rw [hr] at h
    exact .inl h
  · rw [hr, cell_enterRoom ha] at h
    split at h
    · rename_i he
      obtain ⟨rfl, rfl⟩ := he
      obtain rfl := Option.some.inj h
      have hs := enterRoom_accepted_iff.1 ha
      refine .inr ⟨rfl, ?_, next, tail, hc⟩
      simp only [Server.takes, hc, if_pos hs]
    · exact .inl h
  · rw [hr, cell_leaveRoom] at h
    split at h
    · cases h
    · exact .inl h

/-- A seat that is taken is empty afterwards, or the taker's own. -/
theorem Moves.seat_taken (hm : Moves s f a e) (h : s.takes f = some (r, u)) :
    e.rooms.cell r u = none ∨ e.rooms.cell r u = some f := by
  unfold Server.takes at h
  split at h
  · rename_i r' u' next tail hc
    split at h
    · rename_i hs
      obtain ⟨rfl, rfl⟩ := Prod.mk.inj (Option.some.inj h)
      right
      rw [hm.rooms_enterRoom hc, cell_enterRoom (enterRoom_accepted_iff.2 hs)]
      simp
    · cases h
  · rename_i r' u' next tail hc
    obtain ⟨rfl, rfl⟩ := Prod.mk.inj (Option.some.inj h)
    left
    rw [hm.rooms_leaveRoom hc, cell_leaveRoom]
    simp
  · cases h

/-- A seat is taken by a critical section. -/
theorem Moves.takes_run (hm : Moves s f a e) (h : s.takes f = some (r, u)) :
    ∃ order type call next tail, a = .run order type ∧ s.pc f = .body call next tail ∧
      ((∃ r u, call = .enterRoom r u) ∨ ∃ r u, call = .leaveRoom r u) := by
  unfold Server.takes at h
  split at h
  · rename_i r' u' next tail hc
    obtain ⟨order, type, rfl⟩ := hm.run_of_body hc
    exact ⟨order, type, _, next, tail, rfl, hc, .inl ⟨_, _, rfl⟩⟩
  · rename_i r' u' next tail hc
    obtain ⟨order, type, rfl⟩ := hm.run_of_body hc
    exact ⟨order, type, _, next, tail, rfl, hc, .inr ⟨_, _, rfl⟩⟩
  · cases h

/-- **Seats are under user IDs that can be C strings.** -/
structure Seated (rooms : Rooms) : Prop where
  named : ∀ r u c, rooms.cell r u = some c → u ≠ []
  clean : ∀ r u c, rooms.cell r u = some c → 0 ∉ u

theorem seated_of_reach (h : chatServer.Reach C s) : Seated s.rooms := by
  refine chat_inv (I := fun s => Seated s.rooms) (fun s hs => fiberOK_of_reach hs) ?_ ?_ ?_ h
  · constructor <;> intro r u c hc <;> simp [Server.init] at hc
  · exact fun s _ hi _ => hi
  · intro s f a e hF hi _ _ hm
    -- a handler enters a room under its session's ID, which came out of a C string
    have hnew : ∀ r u, (∃ next tail, s.pc f = .body (.enterRoom r u) next tail) → u ≠ [] ∧ 0 ∉ u := by
      rintro r u ⟨next, tail, hc⟩
      have he := (hF f).entering r u (by rw [show (s.fibers f).control = _ from hc]; rfl)
      have hu := (hF f).clean
      rw [he.1] at hu
      exact ⟨he.2.1, hu⟩
    rw [apply_rooms]
    constructor <;> intro r u c hc
    · rcases hm.seat_origin hc with h | ⟨-, -, h⟩
      · exact hi.named r u c h
      · exact (hnew r u h).1
    · rcases hm.seat_origin hc with h | ⟨-, -, h⟩
      · exact hi.clean r u c h
      · exact (hnew r u h).2

/-- Only a room request changes the session when a request is read. -/
theorem handle_session (stack : Stack) (ses : Session) (req : Request) :
    (ses.handle stack req).1 = ses ∨
      ∃ n, req = .roomEnter n ∧ (ses.handle stack req).1 = { ses with currentRoomNumber := n } := by
  cases req with
  | login u t => exact .inl rfl
  | roomEnter n =>
    refine .inr ⟨n, rfl, ?_⟩
    simp only [Session.handle]
    split <;> rfl
  | roomChat m =>
    left
    simp only [Session.handle]
    split <;> rfl
  | unknown id => exact .inl rfl

end SocketAcl
