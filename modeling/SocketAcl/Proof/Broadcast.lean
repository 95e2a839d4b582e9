import SocketAcl.Proof.Script

/-!
# Broadcasts are atomic and totally ordered

The log's broadcast events, in order, are those of one call of `Broadcast` after the other:
the acquisition of the mutex, then one write for each entry the room had at that moment.

* `broadcasts`: the calls of a log, each with the writes it has issued.
* `Iterates`: what a step does to the iteration of a `Broadcast`.
* `Calls`: the invariant; only the last call can be unfinished, and then its fiber is the one
  that holds the mutex.
-/

namespace SocketAcl

/-- A call of `Broadcast` that has acquired the mutex: the room at that moment and the writes
issued since. -/
structure Broadcasted where
  fiber : ConnId
  site : Site
  roomNumber : Int32
  buffer : Bytes
  members : Option Room
  written : List (ConnId × Bytes)

namespace Broadcasted

/-- The events of a call. -/
def events (b : Broadcasted) : List Event :=
  .broadcast b.fiber b.site b.roomNumber b.buffer b.members ::
    b.written.map fun w => .write b.fiber (some (.broadcast b.site b.roomNumber b.buffer)) w.1 w.2

/-- The writes that a call has to issue, in this order of the room's entries. -/
def Writes (b : Broadcasted) (ws : List (ConnId × Bytes)) : Prop :=
  ∃ order, Row.Enumerates order (b.members.getD ∅) ∧ ws = order.map fun e => (e.2, b.buffer)

/-- The call has issued one write of its bytes for each entry the room had, and no other. -/
def Complete (b : Broadcasted) : Prop := b.Writes b.written

end Broadcasted

/-- The acquisition of the mutex by a `Broadcast`, and its writes. -/
def Event.ofBroadcast : Event → Bool
  | .broadcast _ _ _ _ _ => true
  | .write _ (some (.broadcast _ _ _)) _ _ => true
  | _ => false

/-- The calls so far, the last one first, with one more event. -/
def record (calls : List Broadcasted) : Event → List Broadcasted
  | .broadcast f site roomNumber buffer members => ⟨f, site, roomNumber, buffer, members, []⟩ :: calls
  | .write _ (some (.broadcast _ _ _)) dest data =>
    match calls with
    | b :: calls => { b with written := b.written ++ [(dest, data)] } :: calls
    | [] => []
  | _ => calls

/-- The calls of `Broadcast` that acquired the mutex, the last one first. -/
def broadcasts (log : List Event) : List Broadcasted := log.foldl record []

/-- The iteration of a `Broadcast`: its arguments, and the writes to go once its order is set. -/
structure Iteration where
  site : Site
  roomNumber : Int32
  buffer : Bytes
  todo : Option (List (ConnId × Bytes))

/-- The iteration of the method these writes belong to. -/
def After.iteration (todo : List (ConnId × Bytes)) : After → Option Iteration
  | .unlock (.broadcast site roomNumber buffer) _ _ => some ⟨site, roomNumber, buffer, some todo⟩
  | _ => none

/-- The iteration a fiber is in, between the `lock` and the `unlock` of its `Broadcast`. -/
def Control.iteration : Control → Option Iteration
  | .body (.broadcast site roomNumber buffer) _ _ => some ⟨site, roomNumber, buffer, none⟩
  | .write todo k => k.iteration todo
  | .send _ _ todo k => k.iteration todo
  | .unlock (.broadcast site roomNumber buffer) _ _ => some ⟨site, roomNumber, buffer, some []⟩
  | _ => none

/-- How far a call has come: nothing written yet, or all but `todo`. -/
def Broadcasted.Progress (b : Broadcasted) : Option (List (ConnId × Bytes)) → Prop
  | none => b.written = []
  | some todo => b.Writes (b.written ++ todo)

variable {s t : Server} {f g c : ConnId} {a : Act} {e : Effect} {C : Server → Label → Prop}

theorem holds_of_iteration {c : Control} {i : Iteration} (h : c.iteration = some i) : c.holds = true := by
  have hk : ∀ (k : After) todo, k.iteration todo = some i → k.holds = true := by
    intro k todo hk
    cases k with
    | login user => cases hk
    | unlock cur next tail => rfl
  cases c with
  | body call next tail => rfl
  | unlock cur next tail => rfl
  | write todo k => exact hk k todo h
  | send dest rest todo k => exact hk k todo h
  | _ => cases h

theorem record_quiet {ev : Event} (h : ev.ofBroadcast = false) (calls : List Broadcasted) :
    record calls ev = calls := by
  unfold Event.ofBroadcast at h
  split at h
  · cases h
  · cases h
  · rename_i h1 h2
    unfold record
    split
    · exact absurd rfl (h1 _ _ _ _ _)
    · exact absurd rfl (h2 _ _ _ _ _ _)
    · rfl

theorem broadcasts_quiet {log events : List Event} (h : ∀ ev ∈ events, ev.ofBroadcast = false) :
    broadcasts (log ++ events) = broadcasts log := by
  unfold broadcasts
  rw [List.foldl_append]
  generalize log.foldl record [] = calls
  induction events with
  | nil => rfl
  | cons ev events ih =>
    rw [List.foldl_cons, record_quiet (h ev List.mem_cons_self)]
    exact ih fun ev hev => h ev (List.mem_cons_of_mem _ hev)

theorem broadcasts_concat (log : List Event) (ev : Event) :
    broadcasts (log ++ [ev]) = record (broadcasts log) ev := by
  unfold broadcasts
  rw [List.foldl_append]
  rfl

/-- **What a step does to an iteration.** -/
inductive Iterates (s : Server) (f : ConnId) (e : Effect) : Prop
  | quiet (hev : ∀ ev ∈ e.events, ev.ofBroadcast = false)
      (hit : e.fiber.control.iteration = (s.pc f).iteration)
      (hrooms : (s.pc f).iteration ≠ none → e.rooms = s.rooms)
  | opens {site : Site} {r : Int32} {buffer : Bytes} {next : List Call} {tail : Tail}
      (hc : s.pc f = .lock (.broadcast site r buffer) next tail) (ho : s.owner = none)
      (hev : e.events = [.broadcast f site r buffer (s.rooms.lookup r)])
      (hit : e.fiber.control.iteration = some ⟨site, r, buffer, none⟩) (hrooms : e.rooms = s.rooms)
  | chooses {site : Site} {r : Int32} {buffer : Bytes} {order : List (Bytes × ConnId)}
      (hold : (s.pc f).iteration = some ⟨site, r, buffer, none⟩) (hev : e.events = [])
      (ho : Row.Enumerates order (s.rooms.row r))
      (hit : e.fiber.control.iteration = some ⟨site, r, buffer, some (order.map fun e => (e.2, buffer))⟩)
      (hrooms : e.rooms = s.rooms)
  | issues {site : Site} {r : Int32} {buffer : Bytes} {dest : ConnId} {data : Bytes}
      {todo : List (ConnId × Bytes)}
      (hold : (s.pc f).iteration = some ⟨site, r, buffer, some ((dest, data) :: todo)⟩)
      (hev : e.events = [.write f (some (.broadcast site r buffer)) dest data])
      (hit : e.fiber.control.iteration = some ⟨site, r, buffer, some todo⟩) (hrooms : e.rooms = s.rooms)
  | closes {site : Site} {r : Int32} {buffer : Bytes}
      (hold : (s.pc f).iteration = some ⟨site, r, buffer, some []⟩) (hev : e.events = [])
      (hit : e.fiber.control.iteration = none) (hrooms : e.rooms = s.rooms)

theorem Moves.iterates (hm : Moves s f a e) : Iterates s f e := by
  cases hm with
  | @recv stack data hc h0 h256 =>
    refine .quiet ?_ ?_ (fun _ => rfl)
    · intro ev hev
      rw [List.mem_singleton.1 hev]
      rfl
    · rw [hc]
      rcases handle_control stack (s.ses f) (dispatch stack data) with ⟨u, t, hq⟩ | hq | ⟨call, hq, -⟩ <;>
        rw [hq] <;> rfl
  | eof hc =>
    refine .quiet (fun ev hev => by cases hev) ?_ (fun _ => rfl)
    rw [hc]
    simp only [Server.goto, Session.finish]
    split <;> rfl
  | @lock call next tail hc ho =>
    cases call with
    | broadcast site r buffer => exact .opens hc ho rfl rfl rfl
    | _ => exact .quiet (fun ev hev => by cases hev) (by rw [hc]; rfl) (fun _ => rfl)
  | enterRoom hc ha =>
    refine .quiet (fun ev hev => ?_) (by rw [hc]; rfl) (fun h => absurd (by rw [hc]; rfl) h)
    rw [List.mem_singleton.1 hev]
    rfl
  | leaveRoom hc =>
    refine .quiet (fun ev hev => ?_) (by rw [hc]; rfl) (fun h => absurd (by rw [hc]; rfl) h)
    rw [List.mem_singleton.1 hev]
    rfl
  | @broadcastMissing site r buffer next tail order type hc hr =>
    have hempty : Row.Enumerates [] (s.rooms.row r) := by
      rw [Nested.row_of_notMem hr]
      rfl
    exact .chooses (by rw [hc]; rfl) rfl hempty rfl rfl
  | broadcast hc hr he => exact .chooses (by rw [hc]; rfl) rfl he rfl rfl
  | @write dest data todo k hc =>
    cases hk : k.iteration todo with
    | none =>
      have hcur : ∀ site r buffer, k.cur ≠ some (.broadcast site r buffer) := by
        intro site r buffer hcur
        cases k with
        | login user => cases hcur
        | unlock cur next tail =>
          cases hcur
          cases hk
      refine .quiet ?_ ?_ (fun _ => rfl)
      · intro ev hev
        rw [List.mem_singleton.1 hev]
        unfold Event.ofBroadcast
        split
        · rename_i h
          cases h
        · rename_i h
          simp only [Event.write.injEq] at h
          exact absurd h.2.1 (hcur _ _ _)
        · rfl
      · rw [hc]
        cases k with
        | login user => rfl
        | unlock cur next tail => cases cur with
          | broadcast site r buffer => cases hk
          | _ => rfl
    | some i =>
      cases k with
      | login user => cases hk
      | unlock cur next tail => cases cur with
        | broadcast site r buffer => exact .issues (by rw [hc]; rfl) rfl rfl rfl
        | _ => cases hk
  | @unlock cur next tail hc =>
    have hnone : (Control.ret next tail).iteration = none := by
      cases next with
      | nil => cases tail <;> rfl
      | cons call next => rfl
    cases cur with
    | broadcast site r buffer => exact .closes (by rw [hc]; rfl) rfl hnone rfl
    | _ => exact .quiet (fun ev hev => by cases hev) (by rw [hc]; exact hnone) (fun _ => rfl)
  | loginOk hc _ | loginFailed hc _ | refused hc _ | sendPart hc _ _ _ | sendAll hc _ _ | delete hc =>
    refine .quiet (fun ev hev => ?_) (by rw [hc]; rfl) (fun _ => rfl)
    rw [List.mem_singleton.1 hev]
    rfl
  | suspend hr hb => exact .quiet (fun ev hev => by cases hev) rfl (fun _ => rfl)
  | @written cur next tail hc =>
    refine .quiet (fun ev hev => by cases hev) ?_ (fun _ => rfl)
    rw [hc]
    cases cur <;> rfl
  | listMissing hc _ | list hc _ _ | setUser hc | sendFail hc =>
    exact .quiet (fun ev hev => by cases hev) (by rw [hc]; rfl) (fun _ => rfl)

/-! ## The calls of a run -/

/-- **The calls of a run.** -/
structure Calls (s : Server) : Prop where
  blocks : s.log.filter Event.ofBroadcast = (broadcasts s.log).reverse.flatMap Broadcasted.events
  past : ∀ b ∈ (broadcasts s.log).tail, b.Complete
  last : ∀ b ∈ (broadcasts s.log).head?, b.Complete ∨ (s.pc b.fiber).iteration ≠ none
  current : ∀ f i, (s.pc f).iteration = some i → ∃ b calls, broadcasts s.log = b :: calls ∧
    b.fiber = f ∧ b.site = i.site ∧ b.roomNumber = i.roomNumber ∧ b.buffer = i.buffer ∧
    b.members = s.rooms.lookup i.roomNumber ∧ b.Progress i.todo

/-- Only the holder of the mutex iterates. -/
theorem Locks.iterator (hL : Locks s) {i : Iteration} (hi : (s.pc f).iteration = some i) :
    s.owner = some f := (hL.holds f).1 (holds_of_iteration hi)

/-- While another fiber iterates, a step has no part in a broadcast. -/
theorem Iterates.quiet_of_other (hL : Locks s) (hI : Iterates s f e) {i : Iteration}
    (hi : (s.pc g).iteration = some i) (hg : g ≠ f) : ∀ ev ∈ e.events, ev.ofBroadcast = false := by
  have ho := hL.iterator hi
  have hf : ∀ j, (s.pc f).iteration ≠ some j := by
    intro j hj
    rw [hL.iterator hj] at ho
    exact hg (Option.some.inj ho).symm
  cases hI with
  | quiet hev hit hrooms => exact hev
  | opens hc ho' hev hit hrooms =>
    rw [ho'] at ho
    cases ho
  | chooses hold hev ho' hit hrooms => exact absurd hold (hf _)
  | issues hold hev hit hrooms => exact absurd hold (hf _)
  | closes hold hev hit hrooms => exact absurd hold (hf _)

/-- An iteration of another fiber goes on as it was. -/
theorem Calls.other (hL : Locks s) (hK : Calls s) (hm : Moves s f a e) (hg : g ≠ f) {i : Iteration}
    (hi : ((s.apply f e).pc g).iteration = some i) : ∃ b calls, broadcasts (s.apply f e).log = b :: calls ∧
      b.fiber = g ∧ b.site = i.site ∧ b.roomNumber = i.roomNumber ∧ b.buffer = i.buffer ∧
      b.members = (s.apply f e).rooms.lookup i.roomNumber ∧ b.Progress i.todo := by
  rw [apply_pc_ne hg] at hi
  have hquiet := hm.iterates.quiet_of_other hL hi hg
  have hrooms := hL.rooms_fixed hm (holds_of_iteration hi) hg
  rw [apply_log, broadcasts_quiet hquiet, apply_rooms, hrooms]
  exact hK.current g i hi

/-- A step that has no part in a broadcast and keeps its fiber's iteration. -/
theorem Calls.quiet (hL : Locks s) (hK : Calls s) (hm : Moves s f a e)
    (hev : ∀ ev ∈ e.events, ev.ofBroadcast = false)
    (hit : e.fiber.control.iteration = (s.pc f).iteration)
    (hrooms : (s.pc f).iteration ≠ none → e.rooms = s.rooms) : Calls (s.apply f e) := by
  have hlog : broadcasts (s.apply f e).log = broadcasts s.log := by
    rw [apply_log]
    exact broadcasts_quiet hev
  have hpc : ∀ g, ((s.apply f e).pc g).iteration = (s.pc g).iteration := by
    intro g
    rcases eq_or_ne g f with rfl | hg
    · rw [apply_pc_self]
      exact hit
    · rw [apply_pc_ne hg]
  refine ⟨?_, ?_, ?_, ?_⟩
  · have hnone : e.events.filter Event.ofBroadcast = [] := by
      rw [List.filter_eq_nil_iff]
      intro ev h
      simp [hev ev h]
    rw [hlog, apply_log, List.filter_append, hnone, List.append_nil]
    exact hK.blocks
  · rw [hlog]
    exact hK.past
  · rw [hlog]
    intro b hb
    rw [hpc]
    exact hK.last b hb
  · intro g i hi
    rcases eq_or_ne g f with rfl | hg
    · rw [hpc] at hi
      rw [hlog, apply_rooms, hrooms (by rw [hi]; exact Option.some_ne_none i)]
      exact hK.current g i hi
    · exact hK.other hL hm hg hi

/-- While nobody holds the mutex every call is complete. -/
theorem Calls.complete (hL : Locks s) (hK : Calls s) (ho : s.owner = none) :
    ∀ b ∈ broadcasts s.log, b.Complete := by
  intro b hb
  cases hcalls : broadcasts s.log with
  | nil =>
    rw [hcalls] at hb
    cases hb
  | cons b' calls =>
    rw [hcalls] at hb
    rcases List.mem_cons.1 hb with rfl | hb
    · rcases hK.last b (by rw [hcalls]; rfl) with h | h
      · exact h
      · -- its fiber would hold the mutex
        obtain ⟨i, hi⟩ := Option.ne_none_iff_exists'.1 h
        rw [hL.iterator hi] at ho
        cases ho
    · exact hK.past b (by rw [hcalls]; exact hb)

/-- A step of the fiber whose call is at the head of the log: it is enough to know that call. -/
theorem Calls.of_head (hL : Locks s) (hK : Calls s) (hm : Moves s f a e) {b : Broadcasted}
    {calls : List Broadcasted} (hlog : broadcasts (s.apply f e).log = b :: calls)
    (hblocks : (s.log ++ e.events).filter Event.ofBroadcast =
      (b :: calls).reverse.flatMap Broadcasted.events)
    (hpast : ∀ b' ∈ calls, b'.Complete) (hf : b.fiber = f)
    (hlast : b.Complete ∨ e.fiber.control.iteration ≠ none)
    (hcur : ∀ i, e.fiber.control.iteration = some i → b.site = i.site ∧ b.roomNumber = i.roomNumber ∧
      b.buffer = i.buffer ∧ b.members = e.rooms.lookup i.roomNumber ∧ b.Progress i.todo) :
    Calls (s.apply f e) := by
  have hself : (s.apply f e).pc f = e.fiber.control := by rw [apply_pc_self]
  refine ⟨?_, ?_, ?_, ?_⟩
  · rw [hlog, apply_log]
    exact hblocks
  · rw [hlog]
    exact hpast
  · rw [hlog]
    intro b' hb'
    obtain rfl := Option.some.inj hb'
    rw [hf, hself]
    exact hlast
  · intro g i hi
    rcases eq_or_ne g f with rfl | hg
    · rw [hself] at hi
      rw [apply_rooms]
      exact ⟨b, calls, hlog, hf, hcur i hi⟩
    · exact hK.other hL hm hg hi

theorem calls_move (hL : Locks s) (hK : Calls s) (hm : Moves s f a e) : Calls (s.apply f e) := by
  cases hm.iterates with
  | quiet hev hit hrooms => exact hK.quiet hL hm hev hit hrooms
  | @opens site r buffer next tail hc ho hev hit hrooms =>
    have hlog : broadcasts (s.apply f e).log =
        ⟨f, site, r, buffer, s.rooms.lookup r, []⟩ :: broadcasts s.log := by
      rw [apply_log, hev, broadcasts_concat]
      rfl
    -- nobody was iterating, so the calls before this one are complete
    refine hK.of_head hL hm hlog ?_ (hK.complete hL ho) rfl (.inr ?_) ?_
    · rw [List.filter_append, hK.blocks, hev, List.reverse_cons, List.flatMap_append]
      rfl
    · rw [hit]
      exact Option.some_ne_none _
    · intro i hi
      obtain rfl := Option.some.inj (hit.symm.trans hi)
      exact ⟨rfl, rfl, rfl, by rw [hrooms], rfl⟩
  | @chooses site r buffer order hold hev ho hit hrooms =>
    obtain ⟨b, calls, hb, h1, h2, h3, h4, h5, h6⟩ := hK.current f _ hold
    have hlog : broadcasts (s.apply f e).log = b :: calls := by
      rw [apply_log, hev, List.append_nil, hb]
    have hpast := hK.past
    rw [hb, List.tail_cons] at hpast
    refine hK.of_head hL hm hlog ?_ hpast h1 (.inr ?_) ?_
    · rw [hev, List.append_nil, hK.blocks, hb]
    · rw [hit]
      exact Option.some_ne_none _
    · intro i hi
      obtain rfl := Option.some.inj (hit.symm.trans hi)
      -- the order it has chosen is one of the room's
      have hwrites : b.Writes (b.written ++ order.map fun e => (e.2, buffer)) := by
        refine ⟨order, ?_, ?_⟩
        · rw [h5]
          exact ho
        · rw [show b.written = [] from h6, show b.buffer = buffer from h4]
          rfl
      exact ⟨h2, h3, h4, by rw [hrooms]; exact h5, hwrites⟩
  | @issues site r buffer dest data todo hold hev hit hrooms =>
    obtain ⟨b, calls, hb, h1, h2, h3, h4, h5, h6⟩ := hK.current f _ hold
    simp only at h2 h3 h4
    subst h1 h2 h3 h4
    have hlog : broadcasts (s.apply b.fiber e).log =
        { b with written := b.written ++ [(dest, data)] } :: calls := by
      rw [apply_log, hev, broadcasts_concat, hb]
      rfl
    have hpast := hK.past
    rw [hb, List.tail_cons] at hpast
    refine hK.of_head hL hm hlog ?_ hpast rfl (.inr ?_) ?_
    · have hblocks := hK.blocks
      rw [hb, List.reverse_cons, List.flatMap_append] at hblocks
      rw [List.filter_append, hblocks, hev, List.reverse_cons, List.flatMap_append, List.append_assoc]
      simp [Broadcasted.events, Event.ofBroadcast]
    · rw [hit]
      exact Option.some_ne_none _
    · intro i hi
      obtain rfl := Option.some.inj (hit.symm.trans hi)
      -- one more of the order's writes is issued
      obtain ⟨order, ho, hw⟩ := h6
      refine ⟨rfl, rfl, rfl, by rw [hrooms]; exact h5, order, ho, ?_⟩
      rw [List.append_assoc]
      exact hw
  | @closes site r buffer hold hev hit hrooms =>
    obtain ⟨b, calls, hb, h1, h2, h3, h4, h5, h6⟩ := hK.current f _ hold
    have hlog : broadcasts (s.apply f e).log = b :: calls := by
      rw [apply_log, hev, List.append_nil, hb]
    have hpast := hK.past
    rw [hb, List.tail_cons] at hpast
    have hcomplete : b.Writes (b.written ++ []) := h6
    rw [List.append_nil] at hcomplete
    refine hK.of_head hL hm hlog ?_ hpast h1 (.inl hcomplete) ?_
    · rw [hev, List.append_nil, hK.blocks, hb]
    · intro i hi
      rw [hit] at hi
      cases hi

theorem calls_accepted (hF : Fresh s) (hK : Calls s) : Calls s.accepted := by
  have hpc : ∀ g, (s.accepted.pc g).iteration = (s.pc g).iteration := hF.accepted Control.iteration rfl
  refine ⟨hK.blocks, hK.past, ?_, ?_⟩
  · intro b hb
    rw [hpc]
    exact hK.last b hb
  · intro g i hi
    rw [hpc] at hi
    exact hK.current g i hi

/-- The calls of every run. -/
theorem calls_of_reach (h : chatServer.Reach C s) : Calls s := by
  refine chat_inv (J := fun s => Fresh s ∧ Locks s)
    (fun s hs => ⟨fresh_of_reach hs, locks_of_reach hs⟩) ?_ ?_ ?_ h
  · refine ⟨rfl, ?_, ?_, ?_⟩
    · intro b hb
      cases hb
    · intro b hb
      cases hb
    · intro f i hi
      cases hi
  · exact fun s hJ hK _ => calls_accepted hJ.1 hK
  · exact fun s f a e hJ hK _ _ hm => calls_move hJ.2 hK hm

/-! ## Chat requests -/

/-- The chat broadcast that a request read by `f` calls for. -/
def Event.chatRead (f : ConnId) : Event → Option (Int32 × Bytes)
  | .recv g _ (.lock (.broadcast .chat r buffer) _ _) => if g = f then some (r, buffer) else none
  | _ => none

/-- The chat broadcast that `f` begins. -/
def Event.chatBegun (f : ConnId) : Event → Option (Int32 × Bytes)
  | .broadcast g .chat r buffer _ => if g = f then some (r, buffer) else none
  | _ => none

/-- The chat broadcast called for, but waiting for the mutex. -/
def Control.chatWaiting : Control → List (Int32 × Bytes)
  | .lock (.broadcast .chat r buffer) _ _ => [(r, buffer)]
  | _ => []

/-- A chat request is broadcast before the next one is read. -/
def ChatsInOrder (s : Server) : Prop :=
  ∀ f, s.log.filterMap (Event.chatRead f) = s.log.filterMap (Event.chatBegun f) ++ (s.pc f).chatWaiting

theorem ret_chatWaiting {next : List Call} (tail : Tail) (hp : ∀ call ∈ next, call.inner = true) :
    (Control.ret next tail).chatWaiting = [] := by
  cases next with
  | nil => cases tail <;> rfl
  | cons call next =>
    have hi := hp call List.mem_cons_self
    cases call with
    | broadcast site r buffer => cases site with
      | chat => cases hi
      | _ => rfl
    | _ => rfl

/-- **One step of the mover**: what it reads it waits with, what it waits with it begins. -/
theorem Moves.chats (hL : Locks s) (hm : Moves s f a e) :
    (s.pc f).chatWaiting ++ e.events.filterMap (Event.chatRead f) =
      e.events.filterMap (Event.chatBegun f) ++ e.fiber.control.chatWaiting := by
  cases hm with
  | @recv stack data hc h0 h256 =>
    rw [hc]
    rcases handle_control stack (s.ses f) (dispatch stack data) with ⟨u, t, hq⟩ | hq | ⟨call, hq, -⟩ <;>
      rw [hq]
    · rfl
    · rfl
    · cases call with
      | broadcast site r buffer => cases site with
        | chat => simp [Control.chatWaiting, Event.chatRead, Event.chatBegun]
        | _ => rfl
      | _ => rfl
  | eof hc =>
    rw [hc]
    simp only [Server.goto, Session.finish]
    split <;> rfl
  | @lock call next tail hc ho =>
    rw [hc]
    cases call with
    | broadcast site r buffer => cases site with
      | chat => simp [Control.chatWaiting, Server.acquired, Server.goto, Event.chatRead, Event.chatBegun]
      | _ => rfl
    | _ => rfl
  | @unlock cur next tail hc =>
    have hp : ∀ call ∈ next, call.inner = true := by
      have := hL.pending f
      rw [hc] at this
      exact this
    rw [hc]
    exact (ret_chatWaiting tail hp).symm
  | suspend hr hb => exact List.append_nil _
  | loginOk hc _ | loginFailed hc _ | enterRoom hc _ | refused hc _ | leaveRoom hc | listMissing hc _
  | list hc _ _ | broadcastMissing hc _ | broadcast hc _ _ | write hc | setUser hc | written hc
  | sendPart hc _ _ _ | sendAll hc _ _ | sendFail hc | delete hc =>
    rw [hc]
    rfl

/-- A step has no part in the chats of another connection. -/
theorem Moves.chats_other (hm : Moves s f a e) (hg : g ≠ f) :
    e.events.filterMap (Event.chatRead g) = [] ∧ e.events.filterMap (Event.chatBegun g) = [] := by
  cases hm with
  | @recv stack data hc h0 h256 =>
    rcases handle_control stack (s.ses f) (dispatch stack data) with ⟨u, t, hq⟩ | hq | ⟨call, hq, -⟩ <;>
      rw [hq]
    · exact ⟨rfl, rfl⟩
    · exact ⟨rfl, rfl⟩
    · cases call with
      | broadcast site r buffer => cases site with
        | chat => simp [Event.chatRead, Event.chatBegun, hg.symm]
        | _ => exact ⟨rfl, rfl⟩
      | _ => exact ⟨rfl, rfl⟩
  | @lock call next tail hc ho =>
    cases call with
    | broadcast site r buffer => cases site with
      | chat => simp [Server.acquired, Event.chatRead, Event.chatBegun, hg.symm]
      | _ => exact ⟨rfl, rfl⟩
    | _ => exact ⟨rfl, rfl⟩
  | _ => exact ⟨rfl, rfl⟩

theorem chats_of_reach (h : chatServer.Reach C s) : ChatsInOrder s := by
  refine chat_inv (J := fun s => Fresh s ∧ Locks s)
    (fun s hs => ⟨fresh_of_reach hs, locks_of_reach hs⟩) (fun _ => rfl) ?_ ?_ h
  · rintro s ⟨hF, -⟩ hi - g
    rw [hF.accepted Control.chatWaiting rfl]
    exact hi g
  · rintro s f a e ⟨-, hL⟩ hi - - hm g
    rw [apply_log, List.filterMap_append, List.filterMap_append, hi g]
    rcases eq_or_ne g f with rfl | hg
    · rw [apply_pc_self, List.append_assoc, List.append_assoc, hm.chats hL]
    · obtain ⟨h1, h2⟩ := hm.chats_other hg
      rw [h1, h2, apply_pc_ne hg, List.append_nil, List.append_nil]

/-! ## Atomic, totally ordered broadcast -/

/-- The broadcast write to `c` that an event is: the call's fiber and site, its room, its bytes. -/
def Event.deliveredTo (c : ConnId) : Event → Option (ConnId × Site × Int32 × Bytes)
  | .write f (some (.broadcast site r _)) dest data => if dest = c then some (f, site, r, data) else none
  | _ => none

/-- What `c` gets from a call, once for each entry it has in the room. -/
def Broadcasted.deliveries (b : Broadcasted) (c : ConnId) : List (ConnId × Site × Int32 × Bytes) :=
  b.written.filterMap fun w => if w.1 = c then some (b.fiber, b.site, b.roomNumber, w.2) else none

/-- **Atomic, totally ordered broadcast.** -/
structure AtomicBroadcast (s : Server) : Prop where
  /-- the log's broadcast events are those of one call after the other -/
  blocks : s.log.filter Event.ofBroadcast = (broadcasts s.log).reverse.flatMap Broadcasted.events
  /-- a call that is over has issued one write for each entry of its room and no other -/
  complete : ∀ b ∈ broadcasts s.log, b.Complete ∨
    (broadcasts s.log).head? = some b ∧ (s.pc b.fiber).iteration ≠ none
  /-- and one that is not has issued some of them -/
  begun : ∀ b ∈ broadcasts s.log, ∃ todo, b.Writes (b.written ++ todo)
  /-- while a call iterates, its room is what it was when it acquired the mutex -/
  same : ∀ f i, (s.pc f).iteration = some i → ∃ b, (broadcasts s.log).head? = some b ∧ b.fiber = f ∧
    b.roomNumber = i.roomNumber ∧ b.members = s.rooms.lookup i.roomNumber
  /-- and no step of any fiber changes `rooms_` -/
  fixed : ∀ f, (s.pc f).iteration ≠ none → ∀ l t, s.step l = some t → t.rooms = s.rooms
  /-- every connection gets its calls in the one order in which they acquired the mutex -/
  order : ∀ c, s.log.filterMap (Event.deliveredTo c) =
    (broadcasts s.log).reverse.flatMap fun b => b.deliveries c
  /-- the chat requests of one connection are broadcast in the order in which they were read -/
  chats : ChatsInOrder s

theorem filterMap_deliveredTo (log : List Event) (c : ConnId) :
    (log.filter Event.ofBroadcast).filterMap (Event.deliveredTo c) = log.filterMap (Event.deliveredTo c) := by
  rw [List.filterMap_filter]
  congr 1
  funext ev
  cases hev : ev.ofBroadcast with
  | true => rfl
  | false =>
    simp only [Bool.false_eq_true, if_false]
    unfold Event.deliveredTo
    split
    · rename_i f site r buffer dest data
      rw [show Event.ofBroadcast _ = true from rfl] at hev
      cases hev
    · rfl

theorem filterMap_events (b : Broadcasted) (c : ConnId) :
    b.events.filterMap (Event.deliveredTo c) = b.deliveries c := by
  unfold Broadcasted.events Broadcasted.deliveries
  rw [List.filterMap_cons, List.filterMap_map]
  rfl

/-- While a fiber iterates, no step changes `rooms_`. -/
theorem rooms_fixed_iterating {l : Label} (hL : Locks s) (hi : (s.pc f).iteration ≠ none)
    (hs : s.step l = some t) : t.rooms = s.rooms := by
  obtain ⟨i, hi⟩ := Option.ne_none_iff_exists'.1 hi
  rcases step_cases hs with ⟨-, -, rfl⟩ | ⟨g, a, e, -, -, hm, rfl⟩
  · rfl
  · rw [apply_rooms]
    rcases eq_or_ne f g with rfl | hg
    · cases hm.iterates with
      | quiet hev hit hrooms => exact hrooms (by rw [hi]; exact Option.some_ne_none i)
      | opens hc ho hev hit hrooms => exact hrooms
      | chooses hold hev ho hit hrooms => exact hrooms
      | issues hold hev hit hrooms => exact hrooms
      | closes hold hev hit hrooms => exact hrooms
    · exact hL.rooms_fixed hm (holds_of_iteration hi) hg

/-- **Broadcasts are atomic and totally ordered**, in every run of the server. -/
theorem broadcasts_atomic (h : chatServer.Reachable s) : AtomicBroadcast s := by
  have hK := calls_of_reach h
  have hL := locks_of_reach h
  have hcomplete : ∀ b ∈ broadcasts s.log, b.Complete ∨
      (broadcasts s.log).head? = some b ∧ (s.pc b.fiber).iteration ≠ none := by
    intro b hb
    have hpast := hK.past
    have hlast := hK.last
    cases hcalls : broadcasts s.log with
    | nil =>
      rw [hcalls] at hb
      cases hb
    | cons b' calls =>
      rw [hcalls] at hb hpast hlast
      rcases List.mem_cons.1 hb with rfl | hb
      · rcases hlast b rfl with h | h
        · exact .inl h
        · exact .inr ⟨rfl, h⟩
      · exact .inl (hpast b hb)
  refine ⟨hK.blocks, hcomplete, fun b hb => ?_, fun f i hi => ?_, fun f hf l t hs => ?_, fun c => ?_,
    chats_of_reach h⟩
  · rcases hcomplete b hb with hc | ⟨hhead, hit⟩
    · refine ⟨[], ?_⟩
      rw [List.append_nil]
      exact hc
    · obtain ⟨i, hi⟩ := Option.ne_none_iff_exists'.1 hit
      obtain ⟨b', calls, hb', -, -, -, -, -, hp⟩ := hK.current b.fiber i hi
      rw [hb'] at hhead
      obtain rfl : b' = b := Option.some.inj hhead
      cases htodo : i.todo with
      | none =>
        rw [htodo] at hp
        obtain ⟨order, ho⟩ := Row.exists_enumerates (b'.members.getD ∅)
        refine ⟨order.map fun e => (e.2, b'.buffer), order, ho, ?_⟩
        rw [show b'.written = [] from hp, List.nil_append]
      | some todo =>
        rw [htodo] at hp
        exact ⟨todo, hp⟩
  · obtain ⟨b, calls, hb, h1, -, h3, -, h5, -⟩ := hK.current f i hi
    exact ⟨b, by rw [hb]; rfl, h1, h3, h5⟩
  · exact rooms_fixed_iterating hL hf hs
  · rw [← filterMap_deliveredTo, hK.blocks, List.filterMap_flatMap]
    congr 1
    funext b
    exact filterMap_events b c

/-- Three clients broadcast: two entries, a leave, an entry that a chat waits for, and the chat. -/
theorem broadcasts_atomic_entered : ∃ s, chatServer.Reachable s ∧ (broadcasts s.log).length = 9 ∧
    AtomicBroadcast s := by
  obtain ⟨s, hs, hP⟩ := System.exists_reachable (S := chatServer)
    (P := fun s => decide ((broadcasts s.log).length = 9)) Script.carolComes (by decide +kernel)
  exact ⟨s, hs, of_decide_eq_true hP, broadcasts_atomic hs⟩

end SocketAcl
