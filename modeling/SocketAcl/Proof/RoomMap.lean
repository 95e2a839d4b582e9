import SocketAcl.Proof.Script
import SocketAcl.Proof.UserList

/-!
# The room map between critical sections

* `RoomsKept`: while the mutex is free, every room of `rooms_` has one or two members, and the
  methods that only look at a room, or remove a user who is not in it, leave the map as it was.
* `room_map`: it holds in every run.
-/

namespace SocketAcl

variable {s t : Server} {f : ConnId} {a : Act} {e : Effect} {rooms : Rooms} {r : Int32} {u : Bytes} {call : Call}
  {C : Server → Label → Prop}

/-! ## No room is empty -/

/-- An entry makes no empty room, accepted or not. -/
theorem noEmptyRow_enterRoom (ha : (enterRoom rooms r u f).1 = true) (h : rooms.NoEmptyRow) :
    (enterRoom rooms r u f).2.NoEmptyRow := by
  intro r' hempty
  have hrow := Nested.row_of_lookup hempty
  rw [row_enterRoom ha] at hrow
  split at hrow
  -- the room that was entered has its new member
  · have hentry : ((rooms.row r).insert u f).lookup u = some f := Finmap.lookup_insert _
    rw [hrow] at hentry
    simp at hentry
  · rename_i hne
    rw [lookup_enterRoom_ne ha hne] at hempty
    exact h r' hempty

/-- A leave takes the room away with its last member, also a room it has just made. -/
theorem noEmptyRow_leaveRoom (h : rooms.NoEmptyRow) : (leaveRoom rooms r u).NoEmptyRow := by
  intro r' hempty
  rcases eq_or_ne r' r with rfl | hne
  -- a room that is still there has members left
  · have hmem : r' ∈ leaveRoom rooms r' u := Finmap.mem_of_lookup_eq_some hempty
    rw [mem_leaveRoom, if_pos rfl] at hmem
    have hrow := Nested.row_of_lookup hempty
    rw [row_leaveRoom, if_pos rfl] at hrow
    exact hmem hrow
  · rw [lookup_leaveRoom_ne hne] at hempty
    exact h r' hempty

theorem noEmptyRow_of_reach (h : chatServer.Reach C s) : s.rooms.NoEmptyRow := by
  refine chat_inv (J := fun _ => True) (I := fun s => s.rooms.NoEmptyRow) (fun _ _ => trivial) ?_
    (fun _ _ hi _ => hi) ?_ h
  · intro r hempty
    simp [Server.init] at hempty
  · intro s f a e _ hi _ _ hm
    rw [apply_rooms]
    rcases hm.rooms_cases with h | ⟨r, u, next, tail, -, ha, h⟩ | ⟨r, u, next, tail, -, h⟩
    · rw [h]
      exact hi
    · rw [h]
      exact noEmptyRow_enterRoom ha hi
    · rw [h]
      exact noEmptyRow_leaveRoom hi

/-! ## Who leaves the map alone -/

/-- A leave of a user who is not in the room leaves no trace: `operator[]` makes the room where there is
none, and it goes again. -/
theorem leaveRoom_outsider (h : rooms.NoEmptyRow) (hu : rooms.cell r u = none) : leaveRoom rooms r u = rooms := by
  have hnone : (rooms.row r).erase u = rooms.row r := by
    apply Finmap.ext_lookup
    intro u'
    rcases eq_or_ne u' u with rfl | hne
    · rw [Finmap.lookup_erase]
      exact hu.symm
    · exact Finmap.lookup_erase_ne hne
  apply Finmap.ext_lookup
  intro r'
  apply Nested.lookup_congr
  -- the room is there behind the leave exactly where it was before
  · rw [mem_leaveRoom]
    split
    · rename_i heq
      subst heq
      rw [hnone]
      constructor
      · intro hrow
        by_contra hmem
        exact hrow (Nested.row_of_notMem hmem)
      · intro hmem hrow
        have hlookup := Nested.lookup_of_mem hmem
        rw [hrow] at hlookup
        exact h r' hlookup
    · rfl
  · rw [row_leaveRoom]
    split
    · rename_i heq
      subst heq
      exact hnone
    · rfl

/-- A call that is to leave the map as it is. -/
def Call.Keeps (rooms : Rooms) : Call → Prop
  | .enterRoom _ _ => False
  | .leaveRoom roomNumber userID => rooms.cell roomNumber userID = none
  | .sendUserListToAll _ => True
  | .broadcast _ _ _ => True

/-- **A step that changes the map** is the critical section of a call that may. -/
theorem Moves.rooms_changed (hE : s.rooms.NoEmptyRow) (hm : Moves s f a e) (h : e.rooms ≠ s.rooms) :
    ∃ call, (s.pc f).within = some call ∧ ¬ call.Keeps s.rooms := by
  rcases hm.rooms_cases with heq | ⟨r, u, next, tail, hc, -⟩ | ⟨r, u, next, tail, hc, heq⟩
  · exact absurd heq h
  · exact ⟨.enterRoom r u, by rw [hc]; rfl, id⟩
  · refine ⟨.leaveRoom r u, by rw [hc]; rfl, fun hu => h ?_⟩
    rw [heq]
    exact leaveRoom_outsider hE hu

/-- **The representation of `rooms_`.** -/
structure RoomsKept (s : Server) : Prop where
  /-- while the mutex is free, a room that is there has one or two members -/
  sizes : s.owner = none → ∀ r ∈ s.rooms, 1 ≤ (s.rooms.row r).size ∧ (s.rooms.row r).size ≤ 2
  /-- a step that changes the map is one of a fiber inside a call that may -/
  changed : ∀ l t, s.step l = some t → t.rooms ≠ s.rooms →
    ∃ f a call, l = .act f a ∧ (s.pc f).within = some call ∧ ¬ call.Keeps s.rooms
  /-- from its `lock` to its `unlock`, a call that keeps the map finds it unchanged, whoever moves -/
  kept : ∀ f call t, (s.pc f).within = some call → call.Keeps s.rooms →
    chatServer.Path (fun t _ => (t.pc f).within = some call) s t → t.rooms = s.rooms

/-- **Rooms have one or two members, and only entries and the leaves of members change them.** -/
theorem room_map (h : chatServer.Reachable s) : RoomsKept s := by
  have hchanged : ∀ s, chatServer.Reachable s → ∀ l t, s.step l = some t → t.rooms ≠ s.rooms →
      ∃ f a call, l = .act f a ∧ (s.pc f).within = some call ∧ ¬ call.Keeps s.rooms := by
    intro s h l t hs hne
    rcases step_cases hs with ⟨-, -, rfl⟩ | ⟨f, a, e, rfl, -, hm, rfl⟩
    · exact absurd rfl hne
    · obtain ⟨call, hin, hcall⟩ := hm.rooms_changed (noEmptyRow_of_reach h) hne
      exact ⟨f, a, call, rfl, hin, hcall⟩
  refine ⟨fun _ r hr => ⟨?_, size_of_reach h r⟩, hchanged s h, ?_⟩
  · rw [Nat.one_le_iff_ne_zero, Ne, Row.size_eq_zero]
    intro hempty
    have hlookup := Nested.lookup_of_mem hr
    rw [hempty] at hlookup
    exact noEmptyRow_of_reach h r hlookup
  · intro f call t hin hkeeps hpath
    refine hpath.const (g := Server.rooms) (I := chatServer.Reachable)
      (fun t ht => ht.reach h fun _ _ _ => trivial) ?_
    intro t l u ht heq hin' hs
    by_contra hne
    -- a fiber that changes the map would hold the mutex, and so be `f` itself, inside `call`
    obtain ⟨g, a, call', -, hg, hcall⟩ := hchanged t ht l u hs hne
    have hfg := (locks_of_reach ht).unique (Control.holds_of_within hin') (Control.holds_of_within hg)
    subst hfg
    rw [hin'] at hg
    obtain rfl := Option.some.inj hg
    rw [heq] at hcall
    exact hcall hkeeps

/-- It does while the first client is in room 1. -/
theorem room_map_entered : ∃ s, chatServer.Reachable s ∧ s.rooms.cell 1 (ascii "alice") = some 0 ∧
    RoomsKept s := by
  obtain ⟨s, hs, hcell, -⟩ := alice_enters (C := fun _ _ => True) fun _ _ _ _ _ => trivial
  exact ⟨s, hs, hcell, room_map hs⟩

end SocketAcl
