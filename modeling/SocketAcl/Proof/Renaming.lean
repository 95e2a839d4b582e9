import SocketAcl.Proof.Script

/-!
# Room numbers are names, apart from -1

`rooms_opaque`: if every `ReqRoomEnter r` of a run asks for room `f r` instead, the same schedule
runs through, with the same writes, and `rooms_` has its keys renamed. The handler keeps `-1` for
"in no room": `f` must not move a requested room there or away from it (`KeepsNone`), and
`sentinel_named` is what happens otherwise.
-/

namespace SocketAcl

/-! ## Renaming -/

/-- The data of a `ReqRoomEnter` with another room number. -/
def renumber (r : Int32) (data : Bytes) : Bytes := memcpy 6 (i32Bytes r) (fill 10 data)

/-- The room a label asks for. -/
def Label.room : Label → Option Int32
  | .act _ (.recv stack data) =>
    match dispatch stack data with
    | .roomEnter r => some r
    | _ => none
  | _ => none

/-- The label with `ReqRoomEnter (f r)` for `ReqRoomEnter r`. -/
def Label.rename (f : Int32 → Int32) : Label → Label
  | .act g (.recv stack data) =>
    match dispatch stack data with
    | .roomEnter r => .act g (.recv stack (renumber (f r) data))
    | _ => .act g (.recv stack data)
  | l => l

/-- `f` keeps the session's "in no room" apart from the rooms that are asked for. -/
def KeepsNone (f : Int32 → Int32) (l : Label) : Prop := ∀ r, l.room = some r → (f r = -1 ↔ r = -1)

/-- The writes: by which fiber, to which connection, and what. -/
def writesOf (log : List Event) : List (ConnId × ConnId × Bytes) :=
  log.filterMap fun
    | .write f _ dest data => some (f, dest, data)
    | _ => none

variable (f : Int32 → Int32)

def Call.rename : Call → Call
  | .enterRoom r u => .enterRoom (f r) u
  | .leaveRoom r u => .leaveRoom (f r) u
  | .sendUserListToAll r => .sendUserListToAll (f r)
  | .broadcast site r buffer => .broadcast site (f r) buffer

def After.rename : After → After
  | .login user => .login user
  | .unlock cur next tail => .unlock (cur.rename f) (next.map (Call.rename f)) tail

def Control.rename : Control → Control
  | .lock call next tail => .lock (call.rename f) (next.map (Call.rename f)) tail
  | .body call next tail => .body (call.rename f) (next.map (Call.rename f)) tail
  | .write todo k => .write todo (k.rename f)
  | .send dest rest todo k => .send dest rest todo (k.rename f)
  | .unlock cur next tail => .unlock (cur.rename f) (next.map (Call.rename f)) tail
  | c => c

/-- The keys of `rooms` renamed. -/
structure RoomsRenamed (rooms rooms' : Rooms) : Prop where
  mem : ∀ r, f r ∈ rooms' ↔ r ∈ rooms
  row : ∀ r, rooms'.row (f r) = rooms.row r
  keys : ∀ r' ∈ rooms', ∃ r, f r = r'

structure SessionRenamed (ses ses' : Session) : Prop where
  user : ses'.currentUserID = ses.currentUserID
  none : ses'.currentRoomNumber = -1 ↔ ses.currentRoomNumber = -1
  room : ses.currentRoomNumber ≠ -1 → ses'.currentRoomNumber = f ses.currentRoomNumber

structure FiberRenamed (x x' : Fiber) : Prop where
  session : SessionRenamed f x.session x'.session
  control : x'.control = x.control.rename f

/-- **The renamed run**, as a relation of its state to the state of the original. -/
structure Renamed (s s' : Server) : Prop where
  rooms : RoomsRenamed f s.rooms s'.rooms
  owner : s'.owner = s.owner
  running : s'.running = s.running
  fibers : ∀ g, FiberRenamed f (s.fibers g) (s'.fibers g)
  next : s'.next = s.next
  broken : s'.broken = s.broken
  writes : writesOf s'.log = writesOf s.log

/-- The same of what a step changes. -/
structure EffectRenamed (e e' : Effect) : Prop where
  fiber : FiberRenamed f e.fiber e'.fiber
  rooms : RoomsRenamed f e.rooms e'.rooms
  owner : e'.owner = e.owner
  running : e'.running = e.running
  broken : e'.broken = e.broken
  writes : writesOf e'.events = writesOf e.events

variable {f} {s s' t : Server} {g : ConnId} {a : Act} {e e' : Effect} {c : Control} {r : Int32} {u : Bytes}
  {stack : Stack} {data : Bytes}

/-! ## The renamed request -/

theorem renumber_length (r : Int32) (data : Bytes) : (renumber r data).length = max 10 data.length := by
  have hfill : (fill 10 data).length = max 10 data.length := by
    simp only [fill, zeros, List.length_append, List.length_replicate]
    omega
  rw [renumber, memcpy_length, hfill]
  rw [hfill]
  exact le_max_left 10 _

theorem renumber_getD (r : Int32) (data : Bytes) (i : ℕ) : (renumber r data).getD i 0 =
    if 6 ≤ i ∧ i < 10 then (i32Bytes r).getD (i - 6) 0 else data.getD i 0 := by
  have hfill : 6 ≤ (fill 10 data).length := by
    simp only [fill, zeros, List.length_append, List.length_replicate]
    omega
  rw [renumber, memcpy_getD hfill, fill_getD]
  rfl

/-- The renamed request asks for the other room. -/
theorem dispatch_renumber (hlen : data.length ≤ 256) (h : dispatch stack data = .roomEnter r) (r' : Int32) :
    dispatch stack (renumber r' data) = .roomEnter r' := by
  have hlen' : (renumber r' data).length ≤ 256 := by
    rw [renumber_length]
    omega
  have hbyte : ∀ i < 256, (fill 256 (renumber r' data) ++ stack.behindBuf).getD i 0 =
      if 6 ≤ i ∧ i < 10 then (i32Bytes r').getD (i - 6) 0 else (fill 256 data ++ stack.behindBuf).getD i 0 := by
    intro i hi
    rw [fill_append_getD hlen' hi, fill_append_getD hlen hi, renumber_getD]
  have hid : (PacketHeader.deserialize (fill 256 (renumber r' data) ++ stack.behindBuf)).id =
      (PacketHeader.deserialize (fill 256 data ++ stack.behindBuf)).id :=
    PacketHeader.id_eq_iff.2 ⟨hbyte 2 (by omega), hbyte 3 (by omega)⟩
  have hroom : i32At 6 (fill 256 (renumber r' data) ++ stack.behindBuf) = r' :=
    i32At_eq (hbyte 6 (by omega)) (hbyte 7 (by omega)) (hbyte 8 (by omega)) (hbyte 9 (by omega))
  unfold dispatch at h ⊢
  simp only [hid]
  by_cases hlogin : (PacketHeader.deserialize (fill 256 data ++ stack.behindBuf)).id = PacketID.reqLogin
  · rw [if_pos hlogin] at h
    cases h
  · rw [if_neg hlogin] at h ⊢
    split at h
    · rename_i henter
      rw [if_pos henter]
      exact congrArg Request.roomEnter hroom
    · split at h <;> cases h

/-! ## The renamed map -/

theorem RoomsRenamed.accepted {rooms rooms' : Rooms} (h : RoomsRenamed f rooms rooms') (r : Int32) (u : Bytes) (c : ConnId) :
    (enterRoom rooms' (f r) u c).1 = (enterRoom rooms r u c).1 := by
  have hiff : (enterRoom rooms' (f r) u c).1 = true ↔ (enterRoom rooms r u c).1 = true := by
    rw [enterRoom_accepted_iff, enterRoom_accepted_iff, h.row]
  exact Bool.eq_iff_iff.2 hiff

theorem RoomsRenamed.enterRoom (hf : Function.Injective f) {rooms rooms' : Rooms} (h : RoomsRenamed f rooms rooms')
    (r : Int32) (u : Bytes) (c : ConnId) (ha : (enterRoom rooms r u c).1 = true) :
    RoomsRenamed f (SocketAcl.enterRoom rooms r u c).2 (SocketAcl.enterRoom rooms' (f r) u c).2 := by
  have ha' : (SocketAcl.enterRoom rooms' (f r) u c).1 = true := (h.accepted r u c).trans ha
  refine ⟨fun r' => ?_, fun r' => ?_, fun r' hr' => ?_⟩
  · rw [mem_enterRoom ha, mem_enterRoom ha', h.mem, hf.eq_iff]
  · rw [row_enterRoom ha, row_enterRoom ha', h.row, h.row]
    simp only [hf.eq_iff]
  · rcases (mem_enterRoom ha').1 hr' with rfl | hr'
    · exact ⟨r, rfl⟩
    · exact h.keys r' hr'

theorem RoomsRenamed.leaveRoom (hf : Function.Injective f) {rooms rooms' : Rooms} (h : RoomsRenamed f rooms rooms')
    (r : Int32) (u : Bytes) : RoomsRenamed f (leaveRoom rooms r u) (leaveRoom rooms' (f r) u) := by
  refine ⟨fun r' => ?_, fun r' => ?_, fun r' hr' => ?_⟩
  · rw [mem_leaveRoom, mem_leaveRoom, h.mem, h.row]
    simp only [hf.eq_iff]
  · rw [row_leaveRoom, row_leaveRoom, h.row, h.row]
    simp only [hf.eq_iff]
  · rw [mem_leaveRoom] at hr'
    split_ifs at hr' with hr
    · exact ⟨r, hr.symm⟩
    · exact h.keys r' hr'

/-- The map with its keys renamed, entry by entry. -/
theorem RoomsRenamed.lookup {rooms rooms' : Rooms} (h : RoomsRenamed f rooms rooms') (r : Int32) :
    rooms'.lookup (f r) = rooms.lookup r := by
  by_cases hr : r ∈ rooms
  · rw [Nested.lookup_of_mem hr, Nested.lookup_of_mem ((h.mem r).2 hr), h.row]
  · rw [Finmap.lookup_eq_none.2 hr, Finmap.lookup_eq_none.2 (mt (h.mem r).1 hr)]

/-! ## Steps -/

theorem Renamed.pc (h : Renamed f s s') (hc : s.pc g = c) : s'.pc g = c.rename f := by
  rw [Server.pc, (h.fibers g).control, ← hc]

/-- A fiber moves on and nothing else changes. -/
theorem Renamed.goto (h : Renamed f s s') (g : ConnId) (c : Control) :
    EffectRenamed f (s.goto g c) (s'.goto g (c.rename f)) where
  fiber := ⟨(h.fibers g).session, rfl⟩
  rooms := h.rooms
  owner := h.owner
  running := rfl
  broken := h.broken
  writes := rfl

theorem Renamed.apply (h : Renamed f s s') (he : EffectRenamed f e e') :
    Renamed f (s.apply g e) (s'.apply g e') where
  rooms := he.rooms
  owner := he.owner
  running := he.running
  fibers := by
    intro g'
    rcases eq_or_ne g' g with rfl | hg
    · rw [apply_fibers_self, apply_fibers_self]
      exact he.fiber
    · rw [apply_fibers_ne hg, apply_fibers_ne hg]
      exact h.fibers g'
  next := h.next
  broken := he.broken
  writes := by
    simp only [apply_log, writesOf, List.filterMap_append]
    exact congrArg₂ _ h.writes he.writes

theorem rename_ret (next : List Call) (tail : Tail) :
    (Control.ret next tail).rename f = Control.ret (next.map (Call.rename f)) tail := by
  cases next with
  | nil => cases tail <;> rfl
  | cons call next => rfl

theorem rename_blocks (owner : Option ConnId) (c : Control) : (c.rename f).blocks owner = c.blocks owner := by
  cases c <;> rfl

/-- Behind the receive loop. -/
theorem SessionRenamed.finish {ses ses' : Session} (h : SessionRenamed f ses ses') : ses'.finish = ses.finish.rename f := by
  unfold Session.finish
  simp only [h.user, ne_eq, h.none]
  split_ifs with hses
  · rw [h.room hses.1]
    rfl
  · rfl

/-- A request is handled as its renamed one. -/
theorem SessionRenamed.handle {ses ses' : Session} {req : Request} (h : SessionRenamed f ses ses') (stack : Stack)
    (hreq : ∀ r, req ≠ .roomEnter r) :
    SessionRenamed f (ses.handle stack req).1 (ses'.handle stack req).1 ∧
      (ses'.handle stack req).2 = (ses.handle stack req).2.rename f := by
  cases req with
  | login userID authToken => exact ⟨h, rfl⟩
  | roomEnter r => exact absurd rfl (hreq r)
  | roomChat message =>
    simp only [Session.handle, h.user, ne_eq, h.none]
    split_ifs with hses
    · rw [h.room hses.1]
      exact ⟨h, rfl⟩
    · exact ⟨h, rfl⟩
  | unknown id => exact ⟨h, rfl⟩

theorem SessionRenamed.handle_enter {ses ses' : Session} (h : SessionRenamed f ses ses') (stack : Stack)
    (hr : f r = -1 ↔ r = -1) :
    SessionRenamed f (ses.handle stack (.roomEnter r)).1 (ses'.handle stack (.roomEnter (f r))).1 ∧
      (ses'.handle stack (.roomEnter (f r))).2 = (ses.handle stack (.roomEnter r)).2.rename f := by
  simp only [Session.handle, h.user]
  split_ifs with hses
  · exact ⟨⟨rfl, hr, fun _ => rfl⟩, rfl⟩
  · exact ⟨⟨rfl, hr, fun _ => rfl⟩, rfl⟩

/-- The choice of the environment in the renamed run. -/
def Act.rename (f : Int32 → Int32) : Act → Act
  | .recv stack data =>
    match dispatch stack data with
    | .roomEnter r => .recv stack (renumber (f r) data)
    | _ => .recv stack data
  | a => a

theorem rename_act (g : ConnId) (a : Act) : (Label.act g a).rename f = .act g (a.rename f) := by
  cases a with
  | recv stack data =>
    simp only [Label.rename, Act.rename]
    split <;> rfl
  | _ => rfl

/-- **Each move has its renamed move.** -/
theorem Moves.renamed (hf : Function.Injective f) (h : Renamed f s s') (hm : Moves s g a e)
    (hk : KeepsNone f (.act g a)) : ∃ e', Moves s' g (a.rename f) e' ∧ EffectRenamed f e e' := by
  have hses := (h.fibers g).session
  cases hm with
  | @recv stack data hc h0 h256 =>
    have hread : s'.pc g = .read := h.pc hc
    by_cases hreq : ∃ r, dispatch stack data = .roomEnter r
    · obtain ⟨r, hr⟩ := hreq
      have hact : (Act.recv stack data).rename f = .recv stack (renumber (f r) data) := by
        simp only [Act.rename, hr]
      have hkeep : f r = -1 ↔ r = -1 := hk r (by simp only [Label.room, hr])
      have hlen := renumber_length (f r) data
      have hnew := dispatch_renumber h256 hr (f r)
      have hm' : Moves s' g (.recv stack (renumber (f r) data)) _ := .recv hread (by omega) (by omega)
      obtain ⟨hses', hcontrol⟩ := hses.handle_enter stack hkeep
      rw [hact]
      refine ⟨_, hm', ?_⟩
      rw [hnew, hr]
      exact ⟨⟨hses', hcontrol⟩, h.rooms, h.owner, rfl, h.broken, rfl⟩
    · have hact : (Act.recv stack data).rename f = .recv stack data := by
        simp only [Act.rename]
        split
        · rename_i r hr
          exact absurd ⟨r, hr⟩ hreq
        · rfl
      obtain ⟨hses', hcontrol⟩ := hses.handle stack fun r hr => hreq ⟨r, hr⟩
      rw [hact]
      exact ⟨_, .recv hread h0 h256, ⟨hses', hcontrol⟩, h.rooms, h.owner, rfl, h.broken, rfl⟩
  | eof hc =>
    refine ⟨_, .eof (h.pc hc), ?_⟩
    have hfinish : (s'.ses g).finish = (s.ses g).finish.rename f := hses.finish
    rw [hfinish]
    exact h.goto g _
  | loginOk hc hr => exact ⟨_, .loginOk (h.pc hc) hr, { h.goto g _ with writes := rfl }⟩
  | loginFailed hc hr => exact ⟨_, .loginFailed (h.pc hc) hr, { h.goto g _ with writes := rfl }⟩
  | @lock call next tail hc ho =>
    have hquiet : ∀ (s : Server) (call : Call), writesOf (s.acquired g call) = [] := fun s call => by cases call <;> rfl
    refine ⟨_, .lock (h.pc hc) (h.owner.trans ho), { h.goto g (.body call next tail) with owner := rfl, writes := ?_ }⟩
    simp only [hquiet]
  | @enterRoom r u next tail order type hc ha =>
    exact ⟨_, .enterRoom (h.pc hc) ((h.rooms.accepted _ _ _).trans ha),
      { h.goto g (.unlock (.enterRoom r u) (afterEnter r u ++ next) tail) with
        rooms := h.rooms.enterRoom hf r u g ha, writes := rfl }⟩
  | refused hc ha =>
    exact ⟨_, .refused (h.pc hc) ((h.rooms.accepted _ _ _).trans ha), { h.goto g _ with writes := rfl }⟩
  | @leaveRoom r u next tail order type hc =>
    exact ⟨_, .leaveRoom (h.pc hc),
      { h.goto g (.unlock (.leaveRoom r u) (afterLeave r u ++ next) tail) with
        rooms := h.rooms.leaveRoom hf r u, writes := rfl }⟩
  | listMissing hc hr => exact ⟨_, .listMissing (h.pc hc) (mt (h.rooms.mem _).1 hr), h.goto g _⟩
  | list hc hr he =>
    exact ⟨_, .list (h.pc hc) ((h.rooms.mem _).2 hr) (by rw [h.rooms.row]; exact he), h.goto g _⟩
  | broadcastMissing hc hr => exact ⟨_, .broadcastMissing (h.pc hc) (mt (h.rooms.mem _).1 hr), h.goto g _⟩
  | broadcast hc hr he =>
    exact ⟨_, .broadcast (h.pc hc) ((h.rooms.mem _).2 hr) (by rw [h.rooms.row]; exact he), h.goto g _⟩
  | write hc => exact ⟨_, .write (h.pc hc), { h.goto g _ with writes := rfl }⟩
  | setUser hc =>
    refine ⟨_, .setUser (h.pc hc), { h.goto g .read with fiber := ⟨⟨?_, hses.none, hses.room⟩, rfl⟩ }⟩
    simp only [hses.user]
  | written hc => exact ⟨_, .written (h.pc hc), h.goto g _⟩
  | sendPart hc h0 hn hb =>
    exact ⟨_, .sendPart (h.pc hc) h0 hn (by rw [h.broken]; exact hb), { h.goto g _ with writes := rfl }⟩
  | sendAll hc h0 hb =>
    exact ⟨_, .sendAll (h.pc hc) h0 (by rw [h.broken]; exact hb), { h.goto g _ with writes := rfl }⟩
  | sendFail hc =>
    exact ⟨_, .sendFail (h.pc hc), { h.goto g _ with broken := by simp only [h.broken] }⟩
  | @unlock cur next tail hc =>
    refine ⟨_, .unlock (h.pc hc), ?_⟩
    rw [← rename_ret]
    exact { h.goto g (.ret next tail) with owner := rfl }
  | delete hc => exact ⟨_, .delete (h.pc hc), { h.goto g _ with running := rfl, writes := rfl }⟩
  | suspend hr hb =>
    have hpc : s'.pc g = (s.pc g).rename f := (h.fibers g).control
    refine ⟨_, .suspend (h.running.trans hr) (by rw [hpc, h.owner, rename_blocks]; exact hb), ?_⟩
    rw [hpc]
    exact { h.goto g (s.pc g) with running := rfl }

theorem Renamed.accepted (h : Renamed f s s') : Renamed f s.accepted s'.accepted where
  rooms := h.rooms
  owner := h.owner
  running := h.running
  fibers := by
    intro g
    have hnext := h.next
    rcases eq_or_ne g s.next with rfl | hg
    · rw [accepted_fibers_self, ← hnext, accepted_fibers_self]
      exact ⟨⟨rfl, Iff.rfl, fun h0 => absurd rfl h0⟩, rfl⟩
    · rw [accepted_fibers_ne hg, accepted_fibers_ne (by rwa [hnext])]
      exact h.fibers g
  next := congrArg (· + 1) h.next
  broken := h.broken
  writes := h.writes

/-- Each step has its renamed step. -/
theorem Renamed.step (hf : Function.Injective f) {l : Label} (h : Renamed f s s') (hk : KeepsNone f l)
    (hs : s.step l = some t) : ∃ t', s'.step (l.rename f) = some t' ∧ Renamed f t t' := by
  rcases step_cases hs with ⟨rfl, hr, rfl⟩ | ⟨g, a, e, rfl, hturn, hm, rfl⟩
  · exact ⟨s'.accepted, if_pos (h.running.trans hr), h.accepted⟩
  · obtain ⟨e', hm', he⟩ := hm.renamed hf h hk
    have hturn' : s'.Turn g := by rwa [Server.Turn, h.running]
    exact ⟨_, by rw [rename_act]; exact hm'.step hturn', h.apply he⟩

theorem renamed_init : Renamed f Server.init Server.init where
  rooms := ⟨fun _ => iff_of_false Finmap.notMem_empty Finmap.notMem_empty, fun _ => rfl,
    fun _ hr => absurd hr Finmap.notMem_empty⟩
  owner := rfl
  running := rfl
  fibers := fun _ => ⟨⟨rfl, Iff.rfl, fun h0 => absurd rfl h0⟩, rfl⟩
  next := rfl
  broken := rfl
  writes := rfl

/-- Each run has its renamed run. -/
theorem Renamed.run (hf : Function.Injective f) {es : List Label} (h : Renamed f s s')
    (hk : ∀ l ∈ es, KeepsNone f l) (hs : chatServer.run s es = some t) :
    ∃ t', chatServer.run s' (es.map (Label.rename f)) = some t' ∧ Renamed f t t' := by
  induction es generalizing s s' with
  | nil =>
    obtain rfl := Option.some.inj hs
    exact ⟨s', rfl, h⟩
  | cons l es ih =>
    obtain ⟨u, hu, hrun⟩ := Option.bind_eq_some_iff.1 hs
    obtain ⟨u', hu', h'⟩ := h.step hf (hk l List.mem_cons_self) hu
    obtain ⟨t', ht', hrenamed⟩ := ih h' (fun l hl => hk l (List.mem_cons_of_mem _ hl)) hrun
    exact ⟨t', Option.bind_eq_some_iff.2 ⟨u', hu', ht'⟩, hrenamed⟩

/-- **Room numbers are names**, apart from `-1`: the renamed run makes the same writes, and its `rooms_` has
the keys renamed. -/
theorem rooms_opaque (f : Int32 → Int32) (hf : Function.Injective f) (es : List Label)
    (hk : ∀ l ∈ es, KeepsNone f l) (s : Server) (h : chatServer.run .init es = some s) :
    ∃ s', chatServer.run .init (es.map (Label.rename f)) = some s' ∧ writesOf s'.log = writesOf s.log ∧
      (∀ r, s'.rooms.lookup (f r) = s.rooms.lookup r) ∧ ∀ r' ∈ s'.rooms, ∃ r ∈ s.rooms, f r = r' := by
  obtain ⟨s', hs', hR⟩ := Renamed.run hf renamed_init hk h
  refine ⟨s', hs', hR.writes, hR.rooms.lookup, fun r' hr' => ?_⟩
  obtain ⟨r, rfl⟩ := hR.rooms.keys r' hr'
  exact ⟨r, (hR.rooms.mem r).1 hr', rfl⟩

/-- `KeepsNone` as a test. -/
def keepsNone (f : Int32 → Int32) (l : Label) : Bool := l.room.all fun r => (f r = -1) = (r = -1)

theorem keepsNone_iff {l : Label} (h : keepsNone f l = true) : KeepsNone f l := by
  intro r hr
  simpa [keepsNone, hr] using h

/-- Rooms 1 and 2 in each other's place, in the run of a first client. -/
theorem rooms_opaque_entered : ∃ s s', chatServer.run .init Script.aliceEnters = some s ∧
    chatServer.run .init (Script.aliceEnters.map (Label.rename (Equiv.swap 1 2))) = some s' ∧
      s.rooms.cell 1 (ascii "alice") = some 0 ∧ writesOf s'.log = writesOf s.log ∧
      s'.rooms.lookup 2 = s.rooms.lookup 1 := by
  have hrun : ((chatServer.run .init Script.aliceEnters).map fun s => s.rooms.cell 1 (ascii "alice")) =
      some (some 0) := by decide +kernel
  obtain ⟨s, hs, hcell⟩ := Option.map_eq_some_iff.1 hrun
  have htest : Script.aliceEnters.all (keepsNone (Equiv.swap 1 2)) = true := by decide +kernel
  obtain ⟨s', hs', hwrites, hlookup, -⟩ := rooms_opaque (Equiv.swap 1 2) (Equiv.injective _) Script.aliceEnters
    (fun l hl => keepsNone_iff (List.all_eq_true.1 htest l hl)) s hs
  exact ⟨s, s', hs, hs', hcell, hwrites, hlookup 1⟩

/-- Alice sends the chat "hi" in room 1. -/
def aliceChats : List Label :=
  Script.aliceEnters ++ [Script.recv 0 (Script.chatPacket (ascii "hi")), Script.go 0,
    Script.run 0 [(ascii "alice", 0)], Script.go 0]

/-- **`-1` is no name**: in room 1 alice's chat is written to her. With 1 and -1 in each other's place she is
in room -1, where it is dropped, and the same schedule does not run through. -/
theorem sentinel_named : Function.Injective (Equiv.swap (1 : Int32) (-1)) ∧
    (∃ s, chatServer.run .init aliceChats = some s ∧
      (0, 0, chatBuffer (ascii "hi") (ascii "alice")) ∈ writesOf s.log) ∧
    chatServer.run .init (aliceChats.map (Label.rename (Equiv.swap 1 (-1)))) = none := by
  refine ⟨Equiv.injective _, ?_, ?_⟩
  · have hrun : ((chatServer.run .init aliceChats).map fun s =>
        decide ((0, 0, chatBuffer (ascii "hi") (ascii "alice")) ∈ writesOf s.log)) = some true := by decide +kernel
    obtain ⟨s, hs, hwrite⟩ := Option.map_eq_some_iff.1 hrun
    exact ⟨s, hs, of_decide_eq_true hwrite⟩
  · have hnone : (chatServer.run .init (aliceChats.map (Label.rename (Equiv.swap 1 (-1))))).isNone = true := by
      decide +kernel
    exact Option.isNone_iff_eq_none.1 hnone

end SocketAcl
