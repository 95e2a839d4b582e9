import SocketAcl.Proof.ClientFraming
import SocketAcl.Proof.UserList

/-!
# What the server writes as a whole

* `Whole`: a notification packet or one of the three text replies; `After.unit` is the one that a
  run of `conn->write`s carries.
* `units_of_reach`: every write in hand is a whole, and a write in progress has some end of it left.
-/

namespace SocketAcl

/-- What one `conn->write` carries. -/
inductive Whole
  | packet (w : Written)
  | loginSuccess
  | loginFailed
  | roomFull

def Whole.bytes : Whole → Bytes
  | packet w => w.packet
  | loginSuccess => ascii "Login Success!"
  | loginFailed => ascii "Login Failed!"
  | roomFull => ascii "Room is full!"

theorem Whole.bytes_ne_nil (u : Whole) : u.bytes ≠ [] := by
  cases u with
  | packet w =>
    have hlen := w.packet_length
    exact List.ne_nil_of_length_pos (by rw [Whole.bytes]; omega)
  | loginSuccess | loginFailed | roomFull => exact List.cons_ne_nil _ _

/-- What the writes in front of `k` carry. -/
def After.unit : After → Bytes
  | .login (some _) => ascii "Login Success!"
  | .login none => ascii "Login Failed!"
  | .unlock (.enterRoom _ _) _ _ => ascii "Room is full!"
  | .unlock (.broadcast _ _ buffer) _ _ => buffer
  | .unlock _ _ _ => []

/-- What follows the writes a fiber is at. -/
def Control.after : Control → Option After
  | .write _ k => some k
  | .send _ _ _ k => some k
  | _ => none

/-- The writes a fiber has still to issue. -/
def Control.todo : Control → List (ConnId × Bytes)
  | .write todo _ => todo
  | .send _ _ todo _ => todo
  | _ => []

/-- **A fiber writes wholes.** -/
structure Units (c : Control) : Prop where
  calls : ∀ site r buffer, .broadcast site r buffer ∈ c.calls → ∃ w : Written, w.packet = buffer
  whole : ∀ k, c.after = some k → ∃ u : Whole, u.bytes = k.unit
  todo : ∀ k, c.after = some k → ∀ d ∈ c.todo, d.2 = k.unit
  rest : ∀ dest rest todo k, c = .send dest rest todo k → rest <:+ k.unit ∧ rest ≠ []

variable {s t : Server} {f g c : ConnId} {a : Act} {e : Effect} {C : Server → Label → Prop}

/-- A call that broadcasts a packet, if it is a `Broadcast`. -/
def Call.Sound (call : Call) : Prop :=
  ∀ site r buffer, call = .broadcast site r buffer → ∃ w : Written, w.packet = buffer

theorem sound_broadcastMessage (site : Site) (r : Int32) (message senderID : Bytes) :
    (broadcastMessage site r message senderID).Sound := by
  rintro _ _ _ ⟨⟩
  exact ⟨.roomChat message senderID, rfl⟩

/-- Where nothing is being written, only the calls matter. -/
theorem Units.of_calls {c : Control} (hw : c.after = none) (h : ∀ call ∈ c.calls, call.Sound) : Units c where
  calls site r buffer hmem := h _ hmem site r buffer rfl
  whole k hk := by rw [hw] at hk; cases hk
  todo k hk := by rw [hw] at hk; cases hk
  rest dest rest todo k hc := by subst hc; cases hw

/-- Where writes are about to be issued. -/
theorem Units.of_unit {c : Control} {todo : List (ConnId × Bytes)} {k : After}
    (h : ∀ call ∈ c.calls, call.Sound) (hc : c = .write todo k) (hwhole : ∃ u : Whole, u.bytes = k.unit)
    (htodo : ∀ d ∈ todo, d.2 = k.unit) : Units c := by
  subst hc
  refine ⟨fun site r buffer hmem => h _ hmem site r buffer rfl, ?_, ?_, fun _ _ _ _ h => by cases h⟩
  · rintro _ ⟨⟩
    exact hwhole
  · rintro _ ⟨⟩
    exact htodo

theorem Units.sound {c : Control} (hU : Units c) : ∀ call ∈ c.calls, call.Sound := by
  rintro call hcall site r buffer rfl
  exact hU.calls site r buffer hcall

theorem after_ret (next : List Call) (tail : Tail) : (Control.ret next tail).after = none := by
  cases next with
  | nil => cases tail <;> rfl
  | cons call next => rfl

theorem handle_sound (stack : Stack) (ses : Session) (req : Request) :
    (ses.handle stack req).2.after = none ∧ ∀ call ∈ (ses.handle stack req).2.calls, call.Sound := by
  cases req with
  | login u t => exact ⟨rfl, fun call hcall => by cases hcall⟩
  | roomEnter n =>
    simp only [Session.handle]
    split
    · refine ⟨rfl, fun call hcall => ?_⟩
      rw [List.mem_singleton.1 hcall]
      rintro _ _ _ ⟨⟩
    · exact ⟨rfl, fun call hcall => by cases hcall⟩
  | roomChat m =>
    simp only [Session.handle]
    split
    · refine ⟨rfl, fun call hcall => ?_⟩
      rw [List.mem_singleton.1 hcall]
      exact sound_broadcastMessage _ _ _ _
    · exact ⟨rfl, fun call hcall => by cases hcall⟩
  | unknown id => exact ⟨rfl, fun call hcall => by cases hcall⟩

theorem sound_afterEnter (r : Int32) (u : Bytes) : ∀ call ∈ afterEnter r u, call.Sound := by
  intro call hcall
  rcases List.mem_cons.1 hcall with rfl | hcall
  · rintro _ _ _ ⟨⟩
  · rw [List.mem_singleton.1 hcall]
    exact sound_broadcastMessage _ _ _ _

theorem sound_afterLeave (r : Int32) (u : Bytes) : ∀ call ∈ afterLeave r u, call.Sound := by
  intro call hcall
  rcases List.mem_cons.1 hcall with rfl | hcall
  · exact sound_broadcastMessage _ _ _ _
  · rw [List.mem_singleton.1 hcall]
    rintro _ _ _ ⟨⟩

/-- **What a step does to the calls in hand**: those behind it broadcast packets if those before did. -/
theorem Moves.sound (hm : Moves s f a e) (h : ∀ call ∈ (s.pc f).calls, call.Sound) :
    ∀ call ∈ e.fiber.control.calls, call.Sound := by
  have hcons : ∀ {call : Call} {new next : List Call}, call.Sound → (∀ c ∈ new, c.Sound) →
      (∀ c ∈ next, c.Sound) →
      ∀ c ∈ call :: (new ++ next), c.Sound := by
    intro call new next h₁ h₂ h₃ c hc
    rcases List.mem_cons.1 hc with rfl | hc
    · exact h₁
    · exact (List.mem_append.1 hc).elim (h₂ c) (h₃ c)
  cases hm with
  | recv hc h0 h256 => exact (handle_sound _ _ _).2
  | eof hc =>
    simp only [Server.goto, Session.finish]
    split <;> intro call hcall
    · rw [List.mem_singleton.1 hcall]
      rintro _ _ _ ⟨⟩
    · cases hcall
  | enterRoom hc ha =>
    rw [hc] at h
    exact hcons (h _ List.mem_cons_self) (sound_afterEnter _ _) fun c hc => h c (List.mem_cons_of_mem _ hc)
  | leaveRoom hc =>
    rw [hc] at h
    exact hcons (h _ List.mem_cons_self) (sound_afterLeave _ _) fun c hc => h c (List.mem_cons_of_mem _ hc)
  | @list r next tail order type hc hr he =>
    rw [hc] at h
    intro call hcall
    rcases List.mem_cons.1 hcall with rfl | hcall
    · exact h _ List.mem_cons_self
    · rcases List.mem_cons.1 hcall with rfl | hcall
      · rintro _ _ _ ⟨⟩
        exact ⟨.userList type (firstTwo order).1 (firstTwo order).2, rfl⟩
      · exact h call (List.mem_cons_of_mem _ hcall)
  | @unlock cur next tail hc =>
    rw [hc] at h
    intro call hcall
    rw [show (_ : Effect).fiber.control.calls = next from ret_calls next tail] at hcall
    exact h call (List.mem_cons_of_mem _ hcall)
  | suspend hr hb => exact h
  | loginOk hc _ | loginFailed hc _ | lock hc _ | refused hc _ | listMissing hc _ | broadcastMissing hc _
  | broadcast hc _ _ | write hc | setUser hc | written hc | sendPart hc _ _ _ | sendAll hc _ _
  | sendFail hc | delete hc =>
    rw [hc] at h
    exact h

/-- **A fiber goes on writing wholes.** -/
theorem Moves.units (hm : Moves s f a e) (hU : Units (s.pc f)) : Units e.fiber.control := by
  have hsound := hm.sound hU.sound
  have hquiet : e.fiber.control.after = none → Units e.fiber.control := fun h => .of_calls h hsound
  cases hm with
  | recv hc h0 h256 => exact hquiet (handle_sound _ _ _).1
  | eof hc =>
    refine hquiet ?_
    simp only [Server.goto, Session.finish]
    split <;> rfl
  | unlock hc => exact hquiet (after_ret _ _)
  | suspend hr hb => exact hU
  | lock hc _ | enterRoom hc _ | leaveRoom hc | listMissing hc _ | list hc _ _ | broadcastMissing hc _
  | setUser hc | written hc | delete hc => exact hquiet rfl
  | loginOk hc hr =>
    exact .of_unit hsound rfl ⟨.loginSuccess, rfl⟩ fun d hd => by rw [List.mem_singleton.1 hd]; rfl
  | loginFailed hc hr =>
    exact .of_unit hsound rfl ⟨.loginFailed, rfl⟩ fun d hd => by rw [List.mem_singleton.1 hd]; rfl
  | refused hc ha =>
    exact .of_unit hsound rfl ⟨.roomFull, rfl⟩ fun d hd => by rw [List.mem_singleton.1 hd]; rfl
  | @broadcast site r buffer next tail order type hc hr he =>
    obtain ⟨w, hw⟩ := hsound _ List.mem_cons_self site r buffer rfl
    refine .of_unit hsound rfl ⟨.packet w, hw⟩ ?_
    intro d hd
    obtain ⟨m, -, rfl⟩ := List.mem_map.1 hd
    rfl
  | @write dest data todo k hc =>
    rw [hc] at hU
    -- the write begins with all of its unit to be sent
    have hdata : data = k.unit := hU.todo k rfl _ List.mem_cons_self
    refine ⟨fun _ _ _ hcall => hsound _ hcall _ _ _ rfl, hU.whole, ?_, ?_⟩
    · rintro _ ⟨⟩ d hd
      exact hU.todo k rfl d (List.mem_cons_of_mem _ hd)
    · rintro _ _ _ _ ⟨⟩
      obtain ⟨u, hu⟩ := hU.whole k rfl
      rw [hdata, ← hu]
      exact ⟨List.suffix_rfl, u.bytes_ne_nil⟩
  -- the socket took a part: an end of the unit is left
  | sendPart hc h0 hn hb =>
    rw [hc] at hU
    refine ⟨fun _ _ _ hcall => hsound _ hcall _ _ _ rfl, hU.whole, hU.todo, ?_⟩
    rintro _ _ _ _ ⟨⟩
    refine ⟨(List.drop_suffix _ _).trans (hU.rest _ _ _ _ rfl).1, ?_⟩
    exact List.ne_nil_of_length_pos (by rw [List.length_drop]; omega)
  | sendAll hc _ _ | sendFail hc =>
    rw [hc] at hU
    exact .of_unit hsound rfl (hU.whole _ rfl) (hU.todo _ rfl)

theorem units_of_reach (h : chatServer.Reach C s) : ∀ f, Units (s.pc f) :=
  fiber_inv (J := fun _ => True) (Φ := fun _ x => Units x.control) (fun _ _ => trivial)
    (fun _ => .of_calls rfl fun _ hcall => by cases hcall) (fun _ => .of_calls rfl fun _ hcall => by cases hcall)
    (fun _ _ _ _ _ hU _ hm => hm.units hU) h

end SocketAcl
