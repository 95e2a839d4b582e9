import SocketAcl.Proof.RoomMap

/-!
# Entering and leaving as operations on a set of members

The map changes of `EnterRoom` and `LeaveRoom` read and change one room (`RoomOp.actsOn`), though
`operator[]` makes rooms on the way and `LeaveRoom` takes them away again.

* `MembershipSet`: a leave undoes an entry, leaving twice is leaving once, and changes of different
  rooms commute.
* `rooms_compose`: so it is on every map without an empty room.
-/

namespace SocketAcl

/-- A change of `rooms_`: the critical section of `EnterRoom` or of `LeaveRoom`. -/
inductive RoomOp
  | enter (roomNumber : Int32) (userID : Bytes) (conn : ConnId)
  | leave (roomNumber : Int32) (userID : Bytes)

namespace RoomOp

/-- The room it is about. -/
def roomNumber : RoomOp → Int32
  | enter roomNumber _ _ => roomNumber
  | leave roomNumber _ => roomNumber

/-- Whether it is accepted, and the map left behind. -/
def run (rooms : Rooms) : RoomOp → Bool × Rooms
  | enter roomNumber userID conn => enterRoom rooms roomNumber userID conn
  | leave roomNumber userID => (true, leaveRoom rooms roomNumber userID)

/-- The same seen from its room, which may not be there. -/
def onRoom (room : Option Room) : RoomOp → Bool × Option Room
  | enter _ userID conn =>
    let row := room.getD ∅
    (decide (row.size < 2), if row.size < 2 then some (row.insert userID conn) else room)
  | leave _ userID =>
    let row := (room.getD ∅).erase userID
    (true, if row = ∅ then none else some row)

end RoomOp

variable {rooms : Rooms} {r : Int32} {u : Bytes} {c : ConnId}

theorem lookup_enterRoom : (enterRoom rooms r u c).2.lookup r =
    if (rooms.row r).size < 2 then some ((rooms.row r).insert u c) else rooms.lookup r := by
  split
  · rename_i hlt
    have ha := enterRoom_accepted_iff (u := u) (c := c).2 hlt
    have hmem : r ∈ (enterRoom rooms r u c).2 := (mem_enterRoom ha).2 (.inl rfl)
    rw [Nested.lookup_of_mem hmem, row_enterRoom ha, if_pos rfl]
  · rename_i hfull
    have hr : (enterRoom rooms r u c).1 = false := by
      rw [← Bool.not_eq_true, enterRoom_accepted_iff]
      exact hfull
    rw [enterRoom_refused hr]

theorem lookup_leaveRoom : (leaveRoom rooms r u).lookup r =
    if (rooms.row r).erase u = ∅ then none else some ((rooms.row r).erase u) := by
  have hmem : r ∈ leaveRoom rooms r u ↔ if r = r then (rooms.row r).erase u ≠ ∅ else r ∈ rooms := mem_leaveRoom
  rw [if_pos rfl] at hmem
  split
  · rename_i hempty
    exact Finmap.lookup_eq_none.2 fun h => hmem.1 h hempty
  · rename_i hne
    rw [Nested.lookup_of_mem (hmem.2 hne), row_leaveRoom, if_pos rfl]

/-- **A change reads and changes its own room only.** -/
theorem RoomOp.actsOn (op : RoomOp) : Nested.ActsOn op.roomNumber op.onRoom op.run := by
  cases op with
  | enter r u c =>
    refine ⟨fun rooms => ?_, fun rooms => lookup_enterRoom, fun rooms r' hr => ?_⟩
    · exact Bool.eq_iff_iff.2 (enterRoom_accepted_iff.trans decide_eq_true_iff.symm)
    · change (enterRoom rooms r u c).2.lookup r' = _
      cases ha : (enterRoom rooms r u c).1 with
      | true => exact lookup_enterRoom_ne ha hr
      | false => rw [enterRoom_refused ha]
  | leave r u =>
    exact ⟨fun _ => rfl, fun _ => lookup_leaveRoom, fun _ _ hr => lookup_leaveRoom_ne hr⟩

/-- **`rooms_` as a set of members.** -/
structure MembershipSet (rooms : Rooms) : Prop where
  /-- a new member is let in where there is room, and the leave restores the map -/
  undo : ∀ r u c, (rooms.row r).size < 2 → rooms.cell r u = none →
    (enterRoom rooms r u c).1 = true ∧ leaveRoom (enterRoom rooms r u c).2 r u = rooms
  twice : ∀ r u, leaveRoom (leaveRoom rooms r u) r u = leaveRoom rooms r u
  /-- changes of two rooms, in either order: the same are accepted, and the same map is left -/
  commute : ∀ x y : RoomOp, x.roomNumber ≠ y.roomNumber →
    (x.run (y.run rooms).2).1 = (x.run rooms).1 ∧ (y.run (x.run rooms).2).1 = (y.run rooms).1 ∧
      (x.run (y.run rooms).2).2 = (y.run (x.run rooms).2).2

/-- Taking a new key out again. -/
theorem erase_insert {m : Room} (h : m.lookup u = none) : (m.insert u c).erase u = m := by
  apply Finmap.ext_lookup
  intro u'
  rcases eq_or_ne u' u with rfl | hne
  · rw [Finmap.lookup_erase, h]
  · rw [Finmap.lookup_erase_ne hne, Finmap.lookup_insert_of_ne _ hne]

/-- A leave undoes the entry of a new member, also where the entry has made the room. -/
theorem leave_enter (h : rooms.NoEmptyRow) (hlt : (rooms.row r).size < 2) (hu : rooms.cell r u = none) :
    leaveRoom (enterRoom rooms r u c).2 r u = rooms := by
  have ha := enterRoom_accepted_iff (u := u) (c := c).2 hlt
  have hrow : ((enterRoom rooms r u c).2.row r).erase u = rooms.row r := by
    rw [row_enterRoom ha, if_pos rfl]
    exact erase_insert hu
  apply Finmap.ext_lookup
  intro r'
  rcases eq_or_ne r' r with rfl | hne
  · rw [lookup_leaveRoom, hrow]
    split
    · rename_i hempty
      -- an empty row of the map is one that is not there
      rw [eq_comm, Finmap.lookup_eq_none]
      intro hmem
      have hlookup := Nested.lookup_of_mem hmem
      rw [hempty] at hlookup
      exact h r' hlookup
    · rename_i hne
      refine (Nested.lookup_of_mem ?_).symm
      by_contra hmem
      exact hne (Nested.row_of_notMem hmem)
  · rw [lookup_leaveRoom_ne hne, lookup_enterRoom_ne ha hne]

/-- **Room operations compose as a set of members**, on every map without an empty room. -/
theorem rooms_compose (h : rooms.NoEmptyRow) : MembershipSet rooms := by
  refine ⟨fun r u c hlt hu => ⟨enterRoom_accepted_iff.2 hlt, leave_enter h hlt hu⟩, fun r u => ?_, fun x y hxy => ?_⟩
  · have hgone : (leaveRoom rooms r u).cell r u = none := by
      rw [cell_leaveRoom, if_pos ⟨rfl, rfl⟩]
    exact leaveRoom_outsider (noEmptyRow_leaveRoom h) hgone
  · exact x.actsOn.commute y.actsOn hxy rooms

/-- They do where one member sits in one room. -/
theorem rooms_compose_entered : ∃ rooms : Rooms, rooms.cell 1 (ascii "alice") = some 0 ∧ MembershipSet rooms := by
  have ha : (enterRoom ∅ 1 (ascii "alice") 0).1 = true := rfl
  refine ⟨(enterRoom ∅ 1 (ascii "alice") 0).2, ?_, rooms_compose (noEmptyRow_enterRoom ha ?_)⟩
  · rw [cell_enterRoom ha, if_pos ⟨rfl, rfl⟩]
  · intro r hempty
    rw [Finmap.lookup_empty] at hempty
    cases hempty

end SocketAcl
