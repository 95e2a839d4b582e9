import SocketAcl.Proof.Broadcast
import SocketAcl.Proof.Seats

/-!
# User lists converge

`SendUserListToAll` takes its snapshot in one critical section and broadcasts it in another,
but no fiber can get in between: the mutex is free only while the fiber runs on to its next
`lock` (`Locks.listing_holds`). So a fiber that has changed a room keeps the others out of
`rooms_` and of every broadcast until its user list is out.

* `Control.updating`: the fiber is between a change of room `r` and the end of the
  `SendUserListToAll(r)` behind it.
* `Lists`: every room has been listed as it is, or some fiber is updating it.
-/

namespace SocketAcl

/-! ## The packet -/

/-- The user IDs that a user-list packet names. -/
def listedNames (buffer : Bytes) : List Bytes :=
  let notification := UserListNotification.deserialize buffer
  [cstr notification.userID1.toList, cstr notification.userID2.toList].filter (· ≠ [])

theorem listedNames_userListBuffer (type : UInt8) {userID1 userID2 : Bytes} (h1 : 0 ∉ userID1)
    (h2 : 0 ∉ userID2) : listedNames (userListBuffer type userID1 userID2) =
      [userID1.take 31, userID2.take 31].filter (· ≠ []) := by
  have hheader : ∀ h : PacketHeader, (h.serialize (zeros UserListNotification.size)).length = 70 := by
    intro h
    rfl
  have hid1 : (UserListNotification.deserialize (userListBuffer type userID1 userID2)).userID1 =
      strncpy 31 userID1 := by
    simp only [UserListNotification.deserialize, userListBuffer, UserListNotification.serialize, headerSize]
    rw [window_memcpy_ne (by rw [memcpy_length] <;> simp [hheader]) (by simp), window_memcpy (by simp [hheader])]
  have hid2 : (UserListNotification.deserialize (userListBuffer type userID1 userID2)).userID2 =
      strncpy 31 userID2 := by
    simp only [UserListNotification.deserialize, userListBuffer, UserListNotification.serialize, headerSize]
    rw [window_memcpy (by rw [memcpy_length] <;> simp [hheader])]
  simp only [listedNames, hid1, hid2, cstr_strncpy h1, cstr_strncpy h2]

/-- A packet built from all the members of a room names exactly them. -/
theorem listedNames_room {type : UInt8} {order : List (Bytes × ConnId)} (hlen : order.length ≤ 2)
    (hne : ∀ e ∈ order, e.1 ≠ []) (hclean : ∀ e ∈ order, 0 ∉ e.1) :
    listedNames (userListBuffer type (firstTwo order).1 (firstTwo order).2) =
      (order.map Prod.fst).map (List.take 31) := by
  have htake : ∀ u : Bytes, u ≠ [] → u.take 31 ≠ [] := by
    intro u hu h
    cases u with
    | nil => exact hu rfl
    | cons b u => cases h
  match order, hlen with
  | [], _ =>
    simp only [firstTwo]
    rw [listedNames_userListBuffer type List.not_mem_nil List.not_mem_nil]
    rfl
  | [e], _ =>
    simp only [firstTwo]
    rw [listedNames_userListBuffer type (hclean e List.mem_cons_self) List.not_mem_nil]
    simp [htake e.1 (hne e List.mem_cons_self)]
  | [e₁, e₂], _ =>
    have hm : e₂ ∈ [e₁, e₂] := List.mem_cons_of_mem _ List.mem_cons_self
    simp only [firstTwo]
    rw [listedNames_userListBuffer type (hclean e₁ List.mem_cons_self) (hclean e₂ hm)]
    simp [htake e₁.1 (hne e₁ List.mem_cons_self), htake e₂.1 (hne e₂ hm)]

/-! ## Rooms have at most two members -/

variable {s t : Server} {f g c : ConnId} {a : Act} {e : Effect} {r r' : Int32}
  {C : Server → Label → Prop}

theorem size_of_reach (h : chatServer.Reach C s) : ∀ r, (s.rooms.row r).size ≤ 2 := by
  refine chat_inv (J := fun _ => True) (I := fun s => ∀ r, (s.rooms.row r).size ≤ 2)
    (fun _ _ => trivial) ?_ (fun _ _ hi _ => hi) ?_ h
  · intro r
    simp [Server.init, Nested.row]
  · intro s f a e _ hi _ _ hm r
    rw [apply_rooms]
    rcases hm.rooms_cases with h | ⟨r', u, next, tail, -, ha, h⟩ | ⟨r', u, next, tail, -, h⟩
    · rw [h]
      exact hi r
    · rw [h]
      exact size_enterRoom ha hi
    · rw [h]
      exact size_leaveRoom hi

/-! ## The calls in hand -/

/-- The calls in hand behind these writes, the current one first. -/
def After.calls : After → List Call
  | .login _ => []
  | .unlock cur next _ => cur :: next

/-- The calls in hand, the current one first. -/
def Control.calls : Control → List Call
  | .lock call next _ => call :: next
  | .body call next _ => call :: next
  | .write _ k => k.calls
  | .send _ _ _ k => k.calls
  | .unlock cur next _ => cur :: next
  | _ => []

/-- `SendUserListToAll(r)`, or the `Broadcast` of its packet. -/
def Call.lists (r : Int32) : Call → Bool
  | .sendUserListToAll r' => decide (r' = r)
  | .broadcast .userList r' _ => decide (r' = r)
  | _ => false

/-- The fiber has changed room `r` and not come to the end of its `SendUserListToAll(r)`. -/
def Control.updating (r : Int32) (c : Control) : Bool := c.calls.any (Call.lists r)

/-- A handler calls `EnterRoom`, `LeaveRoom` or a chat's `Broadcast` with nothing behind it, and
`SendUserListToAll` writes nothing itself. -/
def Control.Outer : Control → Prop
  | .lock call next _ => call.inner = false → next = []
  | .body call next _ => call.inner = false → next = []
  | .write _ (.unlock cur _ _) => ∀ r, cur ≠ .sendUserListToAll r
  | .send _ _ _ (.unlock cur _ _) => ∀ r, cur ≠ .sendUserListToAll r
  | _ => True

theorem outer_of_reach (h : chatServer.Reach C s) : ∀ f, (s.pc f).Outer := by
  refine fiber_inv (J := Locks) (Φ := fun _ x => x.control.Outer) (fun _ => locks_of_reach)
    (fun _ => trivial) (fun _ => trivial) ?_ h
  intro s f a e hL hx _ hm
  cases hm with
  | @recv stack data hc h0 h256 =>
    rcases handle_control stack (s.ses f) (dispatch stack data) with ⟨u, t, hq⟩ | hq | ⟨call, hq, -⟩ <;>
      rw [hq]
    · trivial
    · trivial
    · exact fun _ => rfl
  | eof hc =>
    simp only [Server.goto, Session.finish]
    split
    · exact fun _ => rfl
    · trivial
  | lock hc ho =>
    rw [show (s.fibers f).control = _ from hc] at hx
    exact hx
  | refused hc ha => exact fun r h => by cases h
  | broadcast hc hr he => exact fun r h => by cases h
  | @write dest data todo k hc =>
    rw [show (s.fibers f).control = _ from hc] at hx
    cases k <;> exact hx
  | @sendPart dest rest todo k n hc h0 hn hb =>
    rw [show (s.fibers f).control = _ from hc] at hx
    cases k <;> exact hx
  | @sendAll dest rest todo k hc h0 hb =>
    rw [show (s.fibers f).control = _ from hc] at hx
    cases k <;> exact hx
  | @sendFail dest rest todo k hc =>
    rw [show (s.fibers f).control = _ from hc] at hx
    cases k <;> exact hx
  | @unlock cur next tail hc =>
    have hp := hL.pending f
    rw [hc] at hp
    cases next with
    | nil => cases tail <;> trivial
    | cons call next =>
      intro hi
      rw [hp call List.mem_cons_self] at hi
      cases hi
  | suspend hr hb => exact hx
  | loginOk hc _ | loginFailed hc _ | enterRoom hc _ | leaveRoom hc | listMissing hc _ | list hc _ _
  | broadcastMissing hc _ | setUser hc | written hc | delete hc => trivial

/-- **Nobody gets in between.** While another fiber moves, a fiber that still has to send a list
holds the mutex. -/
theorem Locks.listing_holds (hL : Locks s) (hO : (s.pc g).Outer) (ht : s.Turn f) (hg : g ≠ f)
    {call : Call} (hc : call ∈ (s.pc g).calls) (hi : call.inner = true) : (s.pc g).holds = true := by
  have hw := hL.others_wait ht hg
  cases hpc : s.pc g with
  | lock cur next tail =>
    rw [hpc] at hw hO hc
    -- in front of the `lock` of a handler's own call there is no other call in hand
    have hcur : cur.inner = false := by simpa [Control.waits] using hw
    rw [hO hcur] at hc
    rw [List.mem_singleton.1 hc, hcur] at hi
    cases hi
  | body cur next tail => rfl
  | unlock cur next tail => rfl
  | write todo k =>
    rw [hpc] at hc
    cases k with
    | login user => cases hc
    | unlock cur next tail => rfl
  | send dest rest todo k =>
    rw [hpc] at hc
    cases k with
    | login user => cases hc
    | unlock cur next tail => rfl
  | _ =>
    rw [hpc] at hc
    cases hc

/-- **What a step does to the calls in hand.** -/
inductive Advances (s : Server) (f : ConnId) (e : Effect) : Prop
  | same (h : e.fiber.control.calls = (s.pc f).calls) (hrooms : e.rooms = s.rooms)
  | begins (h : (s.pc f).calls = []) (hcalls : ∀ call ∈ e.fiber.control.calls, call.inner = false)
      (hrooms : e.rooms = s.rooms)
  | enters {r : Int32} {u : Bytes} {next : List Call} {tail : Tail}
      (hc : s.pc f = .body (.enterRoom r u) next tail) (ha : (enterRoom s.rooms r u f).1 = true)
      (hcalls : e.fiber.control.calls = .enterRoom r u :: (afterEnter r u ++ next))
      (hrooms : e.rooms = (enterRoom s.rooms r u f).2)
  | leaves {r : Int32} {u : Bytes} {next : List Call} {tail : Tail}
      (hc : s.pc f = .body (.leaveRoom r u) next tail)
      (hcalls : e.fiber.control.calls = .leaveRoom r u :: (afterLeave r u ++ next))
      (hrooms : e.rooms = leaveRoom s.rooms r u)
  | lists {r : Int32} {next : List Call} {tail : Tail} {order : List (Bytes × ConnId)} {type : UInt8}
      (hc : s.pc f = .body (.sendUserListToAll r) next tail) (hr : r ∈ s.rooms)
      (he : Row.Enumerates order (s.rooms.row r))
      (hcalls : e.fiber.control.calls = .sendUserListToAll r ::
        .broadcast .userList r (userListBuffer type (firstTwo order).1 (firstTwo order).2) :: next)
      (hrooms : e.rooms = s.rooms)
  | returns {cur : Call} {next : List Call} {tail : Tail} (hc : s.pc f = .unlock cur next tail)
      (hcalls : e.fiber.control.calls = next) (hrooms : e.rooms = s.rooms)

theorem ret_calls (next : List Call) (tail : Tail) : (Control.ret next tail).calls = next := by
  cases next with
  | nil => cases tail <;> rfl
  | cons call next => rfl

theorem Moves.advances (hm : Moves s f a e) : Advances s f e := by
  cases hm with
  | @recv stack data hc h0 h256 =>
    refine .begins (by rw [hc]; rfl) ?_ rfl
    rcases handle_control stack (s.ses f) (dispatch stack data) with ⟨u, t, hq⟩ | hq | ⟨call, hq, hi⟩ <;>
      rw [hq] <;> intro call' hcall
    · cases hcall
    · cases hcall
    · rw [List.mem_singleton.1 hcall]
      exact hi
  | eof hc =>
    refine .begins (by rw [hc]; rfl) ?_ rfl
    simp only [Server.goto, Session.finish]
    split <;> intro call hcall
    · rw [List.mem_singleton.1 hcall]
      rfl
    · cases hcall
  | enterRoom hc ha => exact .enters hc ha rfl rfl
  | leaveRoom hc => exact .leaves hc rfl rfl
  | list hc hr he => exact .lists hc hr he rfl rfl
  | unlock hc => exact .returns hc (ret_calls _ _) rfl
  | suspend hr hb => exact .same rfl rfl
  | loginOk hc _ | loginFailed hc _ | lock hc _ | refused hc _ | listMissing hc _ | broadcastMissing hc _
  | broadcast hc _ _ | write hc | setUser hc | written hc | sendPart hc _ _ _ | sendAll hc _ _
  | sendFail hc | delete hc => exact .same (by rw [hc]; rfl) rfl

theorem updating_eq_false {c : Control} : c.updating r = false ↔ ∀ call ∈ c.calls, call.lists r = false := by
  simp [Control.updating]

/-- A fiber that is not updating a room behind its step has not changed it. -/
theorem Advances.lookup (h : Advances s f e) (hu : e.fiber.control.updating r = false) :
    e.rooms.lookup r = s.rooms.lookup r := by
  rw [updating_eq_false] at hu
  cases h with
  | @enters r' u next tail hc ha hcalls hrooms =>
    rw [hrooms]
    apply lookup_enterRoom_ne ha
    rintro rfl
    have := hu (.sendUserListToAll r) (by rw [hcalls]; simp [afterEnter])
    simp [Call.lists] at this
  | @leaves r' u next tail hc hcalls hrooms =>
    rw [hrooms]
    apply lookup_leaveRoom_ne
    rintro rfl
    have := hu (.sendUserListToAll r) (by rw [hcalls]; simp [afterLeave])
    simp [Call.lists] at this
  | same _ hrooms => rw [hrooms]
  | begins _ _ hrooms => rw [hrooms]
  | lists _ _ _ _ hrooms => rw [hrooms]
  | returns _ _ hrooms => rw [hrooms]

/-- An update ends with the `unlock` of the list's `Broadcast`, or of a `SendUserListToAll` that
did not find the room. -/
theorem Advances.updated (h : Advances s f e) (hu : (s.pc f).updating r = true)
    (hu' : e.fiber.control.updating r = false) : ∃ cur next tail, s.pc f = .unlock cur next tail ∧
      cur.lists r = true ∧ ∀ call ∈ next, call.lists r = false := by
  rw [updating_eq_false] at hu'
  have hall : ¬ ∀ call ∈ (s.pc f).calls, call.lists r = false := by
    rw [← updating_eq_false, hu]
    exact Bool.noConfusion
  have hsub : ¬ (s.pc f).calls ⊆ e.fiber.control.calls := fun hs => hall fun call hc => hu' call (hs hc)
  cases h with
  | same h _ => exact absurd (fun call hcall => by rw [h]; exact hcall) hsub
  | begins h _ _ => exact absurd (by rw [h]; exact List.nil_subset _) hsub
  | enters hc _ hcalls _ =>
    refine absurd ?_ hsub
    rw [hc, hcalls]
    exact List.cons_subset_cons _ (List.subset_append_right _ _)
  | leaves hc hcalls _ =>
    refine absurd ?_ hsub
    rw [hc, hcalls]
    exact List.cons_subset_cons _ (List.subset_append_right _ _)
  | lists hc _ _ hcalls _ =>
    refine absurd ?_ hsub
    rw [hc, hcalls]
    exact List.cons_subset_cons _ (List.subset_cons_self _ _)
  | @returns cur next tail hc hcalls _ =>
    rw [hcalls] at hu'
    refine ⟨cur, next, tail, hc, ?_, hu'⟩
    by_contra hcur
    refine hall ?_
    intro call hcall
    rw [hc] at hcall
    rcases List.mem_cons.1 hcall with rfl | hcall
    · simpa using hcur
    · exact hu' call hcall

/-! ## Listed rooms -/

/-- The packet was built from all the members of room `r` as it is. -/
def ListsRoom (rooms : Rooms) (r : Int32) (buffer : Bytes) : Prop :=
  ∃ room order type, rooms.lookup r = some room ∧ Row.Enumerates order room ∧
    buffer = userListBuffer type (firstTwo order).1 (firstTwo order).2

/-- The last user list that was broadcast for room `r`. -/
def lastList (r : Int32) (calls : List Broadcasted) : Option Broadcasted :=
  calls.find? fun b => decide (b.site = .userList ∧ b.roomNumber = r)

/-- The last user list for room `r` has been sent to all of the room as it is, and names it. -/
def Listed (s : Server) (r : Int32) : Prop :=
  ∃ b, lastList r (broadcasts s.log) = some b ∧ b.Complete ∧ b.members = s.rooms.lookup r ∧
    ListsRoom s.rooms r b.buffer

/-- **The invariant**: rooms are listed or being updated, and the lists about to be broadcast are
those of their rooms as they are. -/
structure Lists (s : Server) : Prop where
  listed : ∀ r ∈ s.rooms, Listed s r ∨ ∃ f, (s.pc f).updating r = true
  names : ∀ f r buffer, Call.broadcast .userList r buffer ∈ (s.pc f).calls → ListsRoom s.rooms r buffer
  unlocked : ∀ f r next tail, s.pc f = .unlock (.sendUserListToAll r) next tail → r ∈ s.rooms →
    ∃ buffer, Call.broadcast .userList r buffer ∈ next

theorem ListsRoom.congr {rooms rooms' : Rooms} {buffer : Bytes} (h : rooms'.lookup r = rooms.lookup r)
    (hl : ListsRoom rooms r buffer) : ListsRoom rooms' r buffer := by
  obtain ⟨room, order, type, hr, ho, hb⟩ := hl
  exact ⟨room, order, type, h.trans hr, ho, hb⟩

theorem Listed.congr (hrooms : t.rooms.lookup r = s.rooms.lookup r)
    (hlog : lastList r (broadcasts t.log) = lastList r (broadcasts s.log)) (h : Listed s r) :
    Listed t r := by
  obtain ⟨b, hb, hc, hm, hl⟩ := h
  exact ⟨b, hlog.trans hb, hc, hm.trans hrooms.symm, hl.congr hrooms⟩

theorem calls_of_iteration {c : Control} {i : Iteration} (h : c.iteration = some i) :
    Call.broadcast i.site i.roomNumber i.buffer ∈ c.calls := by
  have hk : ∀ (k : After) todo, k.iteration todo = some i →
      Call.broadcast i.site i.roomNumber i.buffer ∈ k.calls := by
    intro k todo hk
    cases k with
    | login user => cases hk
    | unlock cur next tail => cases cur with
      | broadcast site r buffer =>
        cases hk
        exact List.mem_cons_self
      | _ => cases hk
  cases c with
  | body call next tail => cases call with
    | broadcast site r buffer =>
      cases h
      exact List.mem_cons_self
    | _ => cases h
  | unlock cur next tail => cases cur with
    | broadcast site r buffer =>
      cases h
      exact List.mem_cons_self
    | _ => cases h
  | write todo k => exact hk k todo h
  | send dest rest todo k => exact hk k todo h
  | _ => cases h

/-- Only a fiber that is updating a room adds to the user lists broadcast for it. -/
theorem Moves.lastList (hK : Calls s) (hm : Moves s f a e) (hu : (s.pc f).updating r = false) :
    SocketAcl.lastList r (broadcasts (s.log ++ e.events)) = SocketAcl.lastList r (broadcasts s.log) := by
  rw [updating_eq_false] at hu
  have hsite : ∀ site r' buffer, Call.broadcast site r' buffer ∈ (s.pc f).calls →
      ¬ (site = .userList ∧ r' = r) := by
    rintro site r' buffer hmem ⟨rfl, rfl⟩
    have := hu _ hmem
    simp [Call.lists] at this
  cases hm.iterates with
  | quiet hev hit hrooms => rw [broadcasts_quiet hev]
  | @opens site r' buffer next tail hc ho hev hit hrooms =>
    have hn := hsite site r' buffer (by rw [hc]; exact List.mem_cons_self)
    rw [hev, broadcasts_concat]
    simp only [record, SocketAcl.lastList]
    rw [List.find?_cons_of_neg (by simpa using hn)]
  | chooses hold hev ho hit hrooms => rw [hev, List.append_nil]
  | @issues site r' buffer dest data todo hold hev hit hrooms =>
    have hn := hsite site r' buffer (calls_of_iteration hold)
    obtain ⟨b, calls, hb, -, h2, h3, -⟩ := hK.current f _ hold
    simp only at h2 h3
    rw [hev, broadcasts_concat, hb]
    simp only [record, SocketAcl.lastList]
    rw [List.find?_cons_of_neg (by simpa [h2, h3] using hn),
      List.find?_cons_of_neg (by simpa [h2, h3] using hn)]
  | closes hold hev hit hrooms => rw [hev, List.append_nil]

/-- **Behind its update a room is listed.** -/
theorem Lists.updated (hK : Calls s) (hi : Lists s) (hm : Moves s f a e) (hr : r ∈ e.rooms)
    (hu : (s.pc f).updating r = true) (hu' : e.fiber.control.updating r = false) :
    Listed (s.apply f e) r := by
  obtain ⟨cur, next, tail, hc, hcur, hnext⟩ := hm.advances.updated hu hu'
  have hlookup := hm.advances.lookup hu'
  have hrs : r ∈ s.rooms := by
    rw [Finmap.mem_iff, hlookup] at hr
    exact Finmap.mem_iff.2 hr
  unfold Call.lists at hcur
  split at hcur
  · -- a `SendUserListToAll` that found the room still has the list to broadcast
    rename_i r'
    obtain rfl : r' = r := of_decide_eq_true hcur
    obtain ⟨buffer, hmem⟩ := hi.unlocked f r' next tail hc hrs
    have := hnext _ hmem
    simp [Call.lists] at this
  · rename_i r' buffer
    obtain rfl : r' = r := of_decide_eq_true hcur
    have hit : (s.pc f).iteration = some ⟨.userList, r', buffer, some []⟩ := by rw [hc]; rfl
    obtain ⟨b, calls, hb, -, h2, h3, h4, h5, h6⟩ := hK.current f _ hit
    simp only at h2 h3 h4 h5
    have hcomplete : b.Complete := by
      have h6' : b.Writes (b.written ++ []) := h6
      rw [List.append_nil] at h6'
      exact h6'
    have hev : e.events = [] := by
      cases hm with
      | unlock hc' => rfl
      | suspend hr hb => rfl
      | _ => simp_all
    have hnames := hi.names f r' buffer (by rw [hc]; exact List.mem_cons_self)
    refine ⟨b, ?_, hcomplete, ?_, ?_⟩
    · rw [apply_log, hev, List.append_nil, hb]
      exact List.find?_cons_of_pos (by simp [h2, h3])
    · rw [apply_rooms, hlookup]
      exact h5
    · rw [apply_rooms, h4]
      exact hnames.congr hlookup
  · cases hcur

/-- The lists a fiber has in hand after its own step are those of their rooms. -/
theorem Lists.names_self (hO : (s.pc f).Outer) (hi : Lists s) (hm : Moves s f a e) {buffer : Bytes}
    (hmem : Call.broadcast .userList r buffer ∈ e.fiber.control.calls) : ListsRoom e.rooms r buffer := by
  cases hm.advances with
  | same h hrooms =>
    rw [hrooms]
    exact hi.names f r buffer (h ▸ hmem)
  | begins h hcalls hrooms =>
    have := hcalls _ hmem
    cases this
  | @enters r' u next tail hc ha hcalls hrooms =>
    rw [hc] at hO
    rw [hcalls, hO rfl] at hmem
    simp [afterEnter, broadcastMessage] at hmem
  | @leaves r' u next tail hc hcalls hrooms =>
    rw [hc] at hO
    rw [hcalls, hO rfl] at hmem
    simp [afterLeave, broadcastMessage] at hmem
  -- the list it has just built is that of the room as it is
  | @lists r' next tail order type hc hr he hcalls hrooms =>
    rw [hcalls] at hmem
    rw [hrooms]
    rcases List.mem_cons.1 hmem with h | hmem
    · cases h
    rcases List.mem_cons.1 hmem with h | hmem
    · cases h
      exact ⟨_, order, type, Nested.lookup_of_mem hr, he, rfl⟩
    · exact hi.names f r buffer (by rw [hc]; exact List.mem_cons_of_mem _ hmem)
  | @returns cur next tail hc hcalls hrooms =>
    rw [hrooms]
    refine hi.names f r buffer ?_
    rw [hc]
    rw [hcalls] at hmem
    exact List.mem_cons_of_mem _ hmem

/-- A `SendUserListToAll` that found its room has the list to broadcast when it unlocks. -/
theorem Lists.unlocked_self (hO : (s.pc f).Outer) (hm : Moves s f a e) {next : List Call} {tail : Tail}
    (hc : e.fiber.control = .unlock (.sendUserListToAll r) next tail) (hr : r ∈ e.rooms) :
    ∃ buffer, Call.broadcast .userList r buffer ∈ next := by
  cases hm with
  | @recv stack data hc' h0 h256 =>
    rcases handle_control stack (s.ses f) (dispatch stack data) with ⟨u, t, hq⟩ | hq | ⟨call, hq, -⟩ <;>
      rw [hq] at hc <;> cases hc
  | eof hc' =>
    simp only [Server.goto, Session.finish] at hc
    split at hc <;> cases hc
  | listMissing hc' hr' =>
    cases hc
    exact absurd hr hr'
  | list hc' hr' he =>
    cases hc
    exact ⟨_, List.mem_cons_self⟩
  | written hc' =>
    cases hc
    rw [hc'] at hO
    exact absurd rfl (hO r)
  | @unlock cur next' tail' hc' =>
    cases next' with
    | nil => cases tail' <;> cases hc
    | cons call next' => cases hc
  | suspend hr' hb =>
    rw [show s.pc f = _ from hc] at hb
    cases hb
  | _ => cases hc

theorem lists_move (hL : Locks s) (hO : ∀ g, (s.pc g).Outer) (hK : Calls s) (hi : Lists s)
    (ht : s.Turn f) (hm : Moves s f a e) : Lists (s.apply f e) := by
  have hself : (s.apply f e).pc f = e.fiber.control := by rw [apply_pc_self]
  have hother : ∀ g, g ≠ f → (s.apply f e).pc g = s.pc g := fun g hg => by
    rw [apply_pc_ne hg]
  refine ⟨?_, ?_, ?_⟩
  · intro r hr
    cases hu' : e.fiber.control.updating r with
    -- the mover still owes the room a list
    | true => exact .inr ⟨f, by rw [hself]; exact hu'⟩
    | false =>
      cases hu : (s.pc f).updating r with
      -- it has just sent it
      | true => exact .inl (hi.updated hK hm hr hu hu')
      | false =>
        -- neither before nor after its step does the mover owe a list: nothing is new
        have hlookup := hm.advances.lookup hu'
        have hlog := hm.lastList hK hu
        have hrs : r ∈ s.rooms := by
          rw [apply_rooms, Finmap.mem_iff, hlookup] at hr
          exact Finmap.mem_iff.2 hr
        rcases hi.listed r hrs with h | ⟨g, hg⟩
        · exact .inl (h.congr hlookup hlog)
        · have hgf : g ≠ f := by
            rintro rfl
            rw [hg] at hu
            cases hu
          exact .inr ⟨g, by rw [hother g hgf]; exact hg⟩
  · intro g r buffer hmem
    rcases eq_or_ne g f with rfl | hg
    · rw [hself] at hmem
      exact hi.names_self (hO g) hm hmem
    · rw [hother g hg] at hmem
      -- who has a list in hand holds the mutex: its room stays
      have hh := hL.listing_holds (hO g) ht hg hmem rfl
      rw [apply_rooms, hL.rooms_fixed hm hh hg]
      exact hi.names g r buffer hmem
  · intro g r next tail hc hr
    rcases eq_or_ne g f with rfl | hg
    · rw [hself] at hc
      exact Lists.unlocked_self (hO g) hm hc hr
    · rw [hother g hg] at hc
      have hw := hL.others_wait ht hg
      rw [hc] at hw
      cases hw

theorem lists_accepted (hF : Fresh s) (hi : Lists s) : Lists s.accepted := by
  have hpc : ∀ g, (s.accepted.pc g).calls = (s.pc g).calls := hF.accepted Control.calls rfl
  refine ⟨?_, ?_, ?_⟩
  · intro r hr
    rcases hi.listed r hr with h | ⟨g, hg⟩
    · exact .inl h
    · refine .inr ⟨g, ?_⟩
      unfold Control.updating
      rw [hpc]
      exact hg
  · intro g r buffer hmem
    rw [hpc] at hmem
    exact hi.names g r buffer hmem
  · intro g r next tail hc hr
    rcases eq_or_ne g s.next with rfl | hg
    · rw [accepted_pc_self] at hc
      cases hc
    · rw [accepted_pc_ne hg] at hc
      exact hi.unlocked g r next tail hc hr

theorem lists_of_reach (h : chatServer.Reach C s) : Lists s := by
  refine chat_inv (J := fun s => Fresh s ∧ Locks s ∧ Calls s ∧ ∀ g, (s.pc g).Outer)
    (fun s hs => ⟨fresh_of_reach hs, locks_of_reach hs, calls_of_reach hs, outer_of_reach hs⟩) ?_ ?_ ?_ h
  · refine ⟨?_, ?_, ?_⟩
    · intro r hr
      exact absurd hr Finmap.notMem_empty
    · intro f r buffer hmem
      cases hmem
    · intro f r next tail hc
      cases hc
  · exact fun s hJ hi _ => lists_accepted hJ.1 hi
  · exact fun s f a e hJ hi ht _ hm => lists_move hJ.2.1 hJ.2.2.2 hJ.2.2.1 hi ht hm

/-! ## Convergence -/

/-- The events of a recorded call are in the log. -/
theorem Calls.mem_log (hK : Calls s) {b : Broadcasted} (hb : b ∈ broadcasts s.log) {ev : Event}
    (hev : ev ∈ b.events) : ev ∈ s.log := by
  have hmem : ev ∈ s.log.filter Event.ofBroadcast := by
    rw [hK.blocks]
    exact List.mem_flatMap.2 ⟨b, List.mem_reverse.2 hb, hev⟩
  exact (List.mem_filter.1 hmem).1

/-- **User lists converge.** Whenever no fiber is between a change of room `r` and the end of the
`SendUserListToAll(r)` behind it, the last user list broadcast for `r` names exactly the members
of `r`, each cut to 31 bytes, and was written to the connection of every one of them. -/
theorem user_lists_converge (h : chatServer.Reachable s) (hq : ∀ f, (s.pc f).updating r = false)
    (hr : r ∈ s.rooms) : ∃ b, lastList r (broadcasts s.log) = some b ∧
      (listedNames b.buffer : Multiset Bytes) = (s.rooms.row r).keys.val.map (List.take 31) ∧
      ∀ u c, s.rooms.cell r u = some c →
        Event.write b.fiber (some (.broadcast .userList r b.buffer)) c b.buffer ∈ s.log := by
  have hK := calls_of_reach h
  have hS := seated_of_reach h
  rcases (lists_of_reach h).listed r hr with ⟨b, hb, hcomplete, hmembers, hlist⟩ | ⟨f, hf⟩
  swap
  · rw [hq f] at hf
    cases hf
  obtain ⟨room, order, type, hroom, ho, hbuffer⟩ := hlist
  have hrow : s.rooms.row r = room := Nested.row_of_lookup hroom
  have hseat : ∀ e ∈ order, s.rooms.cell r e.1 = some e.2 := by
    intro e he
    rw [Nested.cell, hrow]
    exact ho.mem_iff.1 he
  refine ⟨b, hb, ?_, ?_⟩
  -- what the packet names
  · have hlen : order.length ≤ 2 := by
      rw [ho.length, ← hrow]
      exact size_of_reach h r
    rw [hbuffer, listedNames_room hlen (fun e he => hS.named r _ _ (hseat e he))
      (fun e he => hS.clean r _ _ (hseat e he)), ← Multiset.map_coe, ho.keys, hrow]
  -- where it was written
  · intro u c hc
    have hsite := List.find?_some hb
    simp only [decide_eq_true_eq] at hsite
    refine hK.mem_log (List.mem_of_find?_eq_some hb) ?_
    obtain ⟨order', ho', hwritten⟩ := hcomplete
    rw [hmembers, hroom, Option.getD_some] at ho'
    have hmem : (u, c) ∈ order' := by
      rw [ho'.mem_iff, ← hrow]
      exact hc
    unfold Broadcasted.events
    rw [hsite.1, hsite.2, hwritten]
    refine List.mem_cons_of_mem _ (List.mem_map.2 ⟨(c, b.buffer), ?_, rfl⟩)
    exact List.mem_map.2 ⟨(u, c), hmem, rfl⟩

/-- A client enters room 1 and the room comes to rest: the last user list for it names the client
and was written to it. -/
theorem user_lists_converge_entered : ∃ s, chatServer.Reachable s ∧
    s.rooms.cell 1 (ascii "alice") = some 0 ∧ ∃ b, lastList 1 (broadcasts s.log) = some b ∧
      (listedNames b.buffer : Multiset Bytes) = (s.rooms.row 1).keys.val.map (List.take 31) ∧
      ∀ u c, s.rooms.cell 1 u = some c →
        Event.write b.fiber (some (.broadcast .userList 1 b.buffer)) c b.buffer ∈ s.log := by
  obtain ⟨s, hs, hP⟩ := System.exists_reachable (S := chatServer) (P := fun s =>
      decide (s.rooms.cell 1 (ascii "alice") = some 0 ∧ s.pc 0 = .read ∧ s.next = 1))
    Script.aliceEnters (by decide +kernel)
  obtain ⟨hc, hpc, hn⟩ := of_decide_eq_true hP
  refine ⟨s, hs, hc, user_lists_converge hs (fun f => ?_) (Nested.mem_of_cell hc)⟩
  rcases Nat.eq_zero_or_pos f with rfl | hf
  · rw [hpc]
    rfl
  · rw [Server.pc, (fresh_of_reach hs).fibers f (by omega)]
    rfl

end SocketAcl
