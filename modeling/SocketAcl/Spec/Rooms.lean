import SocketAcl.Lib.Nested
import SocketAcl.Spec.Packet

/-!
# `RoomManager`: the room map and the notifications

`rooms_` maps a room number to the members of the room, each user ID to the connection it
entered with. A `socket_stream*` is the identity of one allocation (`ConnId`), never used
again. In the source `new` may return a deleted stream's address, so that an entry left behind
names a later connection; the two agree while no entry is left behind.

* `enterRoom`, `leaveRoom`: what the critical sections of `EnterRoom` and `LeaveRoom` do to
  the map, with the rows `operator[]` creates on the way.
* `userListBuffer`, `chatBuffer`: the bytes `SendUserListToAll` and `BroadcastMessage`
  broadcast.
-/

namespace SocketAcl

/-- `acl::socket_stream*`. -/
abbrev ConnId := ℕ

/-- The members of a room. -/
abbrev Room := Row Bytes ConnId

/-- `RoomManager::rooms_`. -/
abbrev Rooms := Nested Int32 Bytes ConnId

/-- The bytes of an ASCII text. -/
def ascii (s : String) : Bytes := s.toList.map fun c => UInt8.ofNat c.toNat

/-- `EnterRoom` between `lock` and the first `unlock`: whether the entry is accepted, and the
map left behind. -/
def enterRoom (rooms : Rooms) (roomNumber : Int32) (userID : Bytes) (conn : ConnId) : Bool × Rooms :=
  let rooms := rooms.touch roomNumber
  if 2 ≤ (rooms.row roomNumber).size then (false, rooms)
  else (true, Finmap.insert roomNumber ((rooms.row roomNumber).insert userID conn) rooms)

/-- `LeaveRoom` between `lock` and `unlock`. -/
def leaveRoom (rooms : Rooms) (roomNumber : Int32) (userID : Bytes) : Rooms :=
  let rooms := rooms.touch roomNumber
  let rooms : Rooms := Finmap.insert roomNumber ((rooms.row roomNumber).erase userID) rooms
  if (rooms.row roomNumber).size = 0 then Finmap.erase roomNumber rooms else rooms

/-- The user-list packet of `SendUserListToAll`. Its `Type` is never set: the byte is whatever
the stack holds. -/
def userListBuffer (type : UInt8) (userID1 userID2 : Bytes) : Bytes :=
  let notification : UserListNotification :=
    { totalSize := 70, id := PacketID.ntfUserList, type := type
      userID1 := strncpy 31 userID1, userID2 := strncpy 31 userID2 }
  notification.serialize (zeros UserListNotification.size)

/-- The chat packet of `BroadcastMessage`. -/
def chatBuffer (message senderID : Bytes) : Bytes :=
  let notification : RoomChatNotification :=
    { totalSize := 294, id := PacketID.ntfRoomChat, type := 0
      userID := strncpy 31 senderID, message := strncpy 255 message }
  notification.serialize (zeros RoomChatNotification.size)

/-- The first two user IDs an iteration over a room meets, `""` where there are fewer. -/
def firstTwo (order : List (Bytes × ConnId)) : Bytes × Bytes :=
  match order with
  | [] => ([], [])
  | [e] => (e.1, [])
  | e₁ :: e₂ :: _ => (e₁.1, e₂.1)

/-! ## What the critical sections do to the map -/

section

variable {rooms : Rooms} {r r' : Int32} {u u' : Bytes} {c : ConnId}

/-- A refused entry leaves the map as it was: the full room already existed. -/
theorem enterRoom_refused (h : (enterRoom rooms r u c).1 = false) : (enterRoom rooms r u c).2 = rooms := by
  unfold enterRoom at h ⊢
  simp only [Nested.row_touch] at h ⊢
  split at h
  · rename_i hs
    rw [if_pos hs]
    apply Nested.touch_of_mem
    by_contra hr
    rw [Nested.row_of_notMem hr] at hs
    simp at hs
  · simp at h

theorem enterRoom_accepted_iff : (enterRoom rooms r u c).1 = true ↔ (rooms.row r).size < 2 := by
  unfold enterRoom
  simp only [Nested.row_touch]
  split
  · rename_i hfull
    exact iff_of_false Bool.false_ne_true (by omega)
  · rename_i hfull
    exact iff_of_true rfl (by omega)

/-- **An accepted entry** puts one entry into one room. -/
theorem row_enterRoom (h : (enterRoom rooms r u c).1 = true) :
    (enterRoom rooms r u c).2.row r' = if r' = r then (rooms.row r).insert u c else rooms.row r' := by
  have hs := enterRoom_accepted_iff.1 h
  unfold enterRoom
  simp only [Nested.row_touch]
  rw [if_neg (by omega), Nested.row_insert, Nested.row_touch]

theorem mem_enterRoom (h : (enterRoom rooms r u c).1 = true) :
    r' ∈ (enterRoom rooms r u c).2 ↔ r' = r ∨ r' ∈ rooms := by
  have hs := enterRoom_accepted_iff.1 h
  unfold enterRoom
  simp only [Nested.row_touch]
  rw [if_neg (by omega), Finmap.mem_insert, Nested.mem_touch]
  tauto

theorem cell_enterRoom (h : (enterRoom rooms r u c).1 = true) :
    (enterRoom rooms r u c).2.cell r' u' = if r' = r ∧ u' = u then some c else rooms.cell r' u' := by
  unfold Nested.cell
  rw [row_enterRoom h]
  by_cases hr : r' = r
  · subst hr
    by_cases hu : u' = u
    · subst hu; simp
    · simp [hu, Finmap.lookup_insert_of_ne _ hu]
  · simp [hr]

/-- **A leave** removes one entry of one room. -/
theorem row_leaveRoom :
    (leaveRoom rooms r u).row r' = if r' = r then (rooms.row r).erase u else rooms.row r' := by
  unfold leaveRoom
  simp only [Nested.row_touch, Nested.row_insert, if_true]
  split
  · rename_i h0
    rw [Nested.row_erase, Nested.row_insert, Nested.row_touch, Row.size_eq_zero.1 h0]
    split <;> rfl
  · rw [Nested.row_insert, Nested.row_touch]

/-- The room is there after a leave exactly when a member is left. -/
theorem mem_leaveRoom : r' ∈ leaveRoom rooms r u ↔
    if r' = r then (rooms.row r).erase u ≠ ∅ else r' ∈ rooms := by
  unfold leaveRoom
  simp only [Nested.row_touch, Nested.row_insert, if_true]
  split
  · rename_i h0
    rw [Finmap.mem_erase, Finmap.mem_insert, Nested.mem_touch, Row.size_eq_zero.1 h0]
    split <;> simp_all
  · rename_i h0
    rw [Finmap.mem_insert, Nested.mem_touch]
    split
    · rename_i hr
      simp only [hr, true_or, true_iff]
      exact fun he => h0 (Row.size_eq_zero.2 he)
    · simp_all

theorem cell_leaveRoom :
    (leaveRoom rooms r u).cell r' u' = if r' = r ∧ u' = u then none else rooms.cell r' u' := by
  unfold Nested.cell
  rw [row_leaveRoom]
  by_cases hr : r' = r
  · subst hr
    by_cases hu : u' = u
    · subst hu; simp
    · simp [hu, Finmap.lookup_erase_ne hu]
  · simp [hr]

/-- An accepted entry leaves the other rooms alone. -/
theorem lookup_enterRoom_ne (h : (enterRoom rooms r u c).1 = true) (hr : r' ≠ r) :
    (enterRoom rooms r u c).2.lookup r' = rooms.lookup r' := by
  apply Nested.lookup_congr
  · rw [mem_enterRoom h]
    simp [hr]
  · rw [row_enterRoom h, if_neg hr]

/-- A leave leaves the other rooms alone. -/
theorem lookup_leaveRoom_ne (hr : r' ≠ r) : (leaveRoom rooms r u).lookup r' = rooms.lookup r' := by
  apply Nested.lookup_congr
  · rw [mem_leaveRoom, if_neg hr]
  · rw [row_leaveRoom, if_neg hr]

/-- An accepted entry keeps every room at two members at most. -/
theorem size_enterRoom (h : (enterRoom rooms r u c).1 = true) (hs : ∀ r, (rooms.row r).size ≤ 2) :
    ((enterRoom rooms r u c).2.row r').size ≤ 2 := by
  have h2 := enterRoom_accepted_iff.1 h
  rw [row_enterRoom h]
  split
  · have := Row.size_insert_le (rooms.row r) u c
    omega
  · exact hs r'

theorem size_leaveRoom (hs : ∀ r, (rooms.row r).size ≤ 2) : ((leaveRoom rooms r u).row r').size ≤ 2 := by
  rw [row_leaveRoom]
  split
  · exact (Row.size_erase_le _ _).trans (hs r)
  · exact hs r'

end

end SocketAcl
