import SocketAcl.Proof.Script
import SocketAcl.Proof.Units

/-!
# The byte stream of a connection

* `Untorn`: what a socket took is wholes one behind the other, and behind them the beginning of one
  more while its write goes on, or after it failed.
* `untorn`: so it is while login replies and the writes of rooms to one connection do not overlap:
  the mutex keeps the others apart.
-/

namespace SocketAcl

/-- The bytes this event sends to `c`. -/
def Event.pieceTo (c : ConnId) : Event → Option Bytes
  | .sent dest piece => if dest = c then some piece else none
  | _ => none

/-- The bytes the socket of `c` took, in order. -/
def Server.stream (s : Server) (c : ConnId) : Bytes := (s.log.filterMap (Event.pieceTo c)).flatten

/-- What a write in progress has already sent to `c`. -/
def Control.part (c : ConnId) : Control → Bytes
  | .send dest rest _ k => if dest = c then k.unit.take (k.unit.length - rest.length) else []
  | _ => []

/-- **No whole is split by the bytes of another.** -/
def Untorn (s : Server) : Prop := ∀ c, ∃ (us : List Whole) (part : Bytes),
  s.stream c = us.flatMap Whole.bytes ++ part ∧ (∃ u : Whole, part <+: u.bytes) ∧
    (part = [] ∨ s.broken c = true ∨ ∃ f rest todo k, s.pc f = .send c rest todo k ∧ part ++ rest = k.unit)

/-- Of a login reply and a room's write to the same connection, neither sends a byte while the other is
part-way. -/
def RepliesApart (s : Server) : Label → Prop
  | .act f (.send _) => ∀ dest rest todo k, s.pc f = .send dest rest todo k →
    ∀ g k', g ≠ f → (s.pc g).after = some k' → k.cur = none ∨ k'.cur = none → (s.pc g).part dest = []
  | _ => True

variable {s t : Server} {f g c : ConnId} {a : Act} {e : Effect} {C : Server → Label → Prop}

/-! ## A write in progress -/

theorem part_send {rest : Bytes} {todo : List (ConnId × Bytes)} {k : After} (h : rest <:+ k.unit) :
    (Control.send c rest todo k).part c ++ rest = k.unit := by
  obtain ⟨front, hfront⟩ := h
  simp only [Control.part, if_true]
  rw [← hfront, List.length_append, Nat.add_sub_cancel, List.take_left]

theorem part_send_ne {dest : ConnId} {rest : Bytes} {todo : List (ConnId × Bytes)} {k : After}
    (h : dest ≠ c) :
    (Control.send dest rest todo k).part c = [] := if_neg h

theorem part_unit {dest : ConnId} {todo : List (ConnId × Bytes)} {k : After} :
    (Control.send dest k.unit todo k).part c = [] := by
  simp only [Control.part, Nat.sub_self, List.take_zero, ite_self]

/-- A fiber that is part-way through a write is at it. -/
theorem send_of_part {x : Control} (h : x.part c ≠ []) : ∃ rest todo k, x = .send c rest todo k := by
  cases x with
  | send dest rest todo k =>
    by_cases hdest : dest = c
    · exact ⟨rest, todo, k, by rw [hdest]⟩
    · exact absurd (part_send_ne hdest) h
  | _ => exact absurd rfl h

/-- What has been sent of a write is the beginning of a whole. -/
theorem exists_part {x : Control} (hU : Units x) : ∃ u : Whole, x.part c <+: u.bytes := by
  by_cases hpart : x.part c = []
  · exact ⟨.roomFull, by rw [hpart]; exact List.nil_prefix⟩
  · obtain ⟨rest, todo, k, rfl⟩ := send_of_part hpart
    obtain ⟨u, hu⟩ := hU.whole k rfl
    exact ⟨u, rest, by rw [hu]; exact part_send (hU.rest c rest todo k rfl).1⟩

/-- **What a step of a fiber sends**: nothing, or its write goes on, or its write fails. -/
inductive Sends (s : Server) (f : ConnId) (a : Act) (e : Effect) : Prop
  | quiet (hpart : ∀ c, e.fiber.control.part c = (s.pc f).part c) (hb : e.broken = s.broken)
      (hev : ∀ c, e.events.filterMap (Event.pieceTo c) = [])
  | sends {dest : ConnId} {rest piece rest' : Bytes} {todo : List (ConnId × Bytes)} {k : After}
      (hc : s.pc f = .send dest rest todo k) (hn : ∃ n, a = .send n) (hdest : s.broken dest = false)
      (hrest : rest = piece ++ rest') (hend : rest' = [] ∧ e.fiber.control = .write todo k ∨
        rest' ≠ [] ∧ e.fiber.control = .send dest rest' todo k)
      (hb : e.broken = s.broken) (hev : e.events = [.sent dest piece])
  | fails {dest : ConnId} {rest : Bytes} {todo : List (ConnId × Bytes)} {k : After}
      (hc : s.pc f = .send dest rest todo k) (hcontrol : e.fiber.control = .write todo k)
      (hb : e.broken = Function.update s.broken dest true) (hev : e.events = [])

theorem part_of_after {x : Control} (h : x.after = none) (c : ConnId) : x.part c = [] := by
  cases x with
  | send dest rest todo k => cases h
  | _ => rfl

theorem Moves.sends (hU : Units (s.pc f)) (hm : Moves s f a e) : Sends s f a e := by
  cases hm with
  | recv hc h0 h256 =>
    refine .quiet (fun c => ?_) rfl fun _ => rfl
    rw [hc]
    exact part_of_after (handle_sound _ _ _).1 c
  | eof hc =>
    refine .quiet (fun c => ?_) rfl fun _ => rfl
    rw [hc]
    simp only [Server.goto, Session.finish]
    split <;> rfl
  | @unlock cur next tail hc =>
    refine .quiet (fun c => ?_) rfl fun _ => rfl
    rw [hc]
    exact part_of_after (after_ret next tail) c
  | suspend hr hb => exact .quiet (fun _ => rfl) rfl fun _ => rfl
  | @lock call next tail hc ho =>
    refine .quiet (fun c => by rw [hc]; rfl) rfl ?_
    intro c
    cases call <;> rfl
  | @write dest data todo k hc =>
    refine .quiet (fun c => ?_) rfl fun _ => rfl
    rw [hc] at hU ⊢
    have hdata : data = k.unit := hU.todo k rfl _ List.mem_cons_self
    rw [hdata]
    exact part_unit
  | @sendPart dest rest todo k n hc h0 hn hb =>
    have hne : rest.drop n ≠ [] := List.ne_nil_of_length_pos (by rw [List.length_drop]; omega)
    exact .sends hc ⟨n, rfl⟩ hb (List.take_append_drop n rest).symm (.inr ⟨hne, rfl⟩) rfl rfl
  | @sendAll dest rest todo k hc h0 hb =>
    exact .sends hc ⟨_, rfl⟩ hb (List.append_nil rest).symm (.inl ⟨rfl, rfl⟩) rfl rfl
  | sendFail hc => exact .fails hc rfl rfl rfl
  | loginOk hc _ | loginFailed hc _ | enterRoom hc _ | refused hc _ | leaveRoom hc | listMissing hc _ | list hc _ _
  | broadcastMissing hc _ | broadcast hc _ _ | setUser hc | written hc | delete hc =>
    exact .quiet (fun c => by rw [hc]; rfl) rfl fun _ => rfl

theorem stream_apply (c : ConnId) :
    (s.apply f e).stream c = s.stream c ++ (e.events.filterMap (Event.pieceTo c)).flatten := by
  unfold Server.stream
  rw [apply_log, List.filterMap_append, List.flatten_append]

/-! ## The invariant -/

/-- **The stream of `c`**: wholes, and what the one fiber that is part-way has sent; after a failed write the
beginning of a whole stays. -/
def Streams (s : Server) (c : ConnId) : Prop := ∃ (us : List Whole) (part : Bytes),
  s.stream c = us.flatMap Whole.bytes ++ part ∧
    (s.broken c = false ∧ (∃ f, part = (s.pc f).part c ∧ ∀ g, g ≠ f → (s.pc g).part c = []) ∨
      s.broken c = true ∧ ∃ u : Whole, part <+: u.bytes)

/-- While a fiber sends to a connection, no other is part-way to it. -/
theorem parts_apart (hL : Locks s) (hC : RepliesApart s (.act f a)) {dest : ConnId} {rest : Bytes}
    {todo : List (ConnId × Bytes)} {k : After} (hc : s.pc f = .send dest rest todo k) (hn : ∃ n, a = .send n)
    (hg : g ≠ f) : (s.pc g).part dest = [] := by
  obtain ⟨n, rfl⟩ := hn
  by_contra hpart
  obtain ⟨rest', todo', k', hc'⟩ := send_of_part hpart
  refine hpart (hC dest rest todo k hc g k' hg (by rw [hc']; rfl) ?_)
  -- two room methods are never inside a write at once
  cases k with
  | login user => exact .inl rfl
  | unlock cur next tail =>
    cases k' with
    | login user => exact .inr rfl
    | unlock cur' next' tail' =>
      exact absurd (hL.unique (by rw [hc']; rfl) (by rw [hc]; rfl)) hg

/-- Where the mover's part of a write to `c` stays, all do. -/
theorem part_apply (hx : e.fiber.control.part c = (s.pc f).part c) (g : ConnId) :
    ((s.apply f e).pc g).part c = (s.pc g).part c := by
  rcases eq_or_ne g f with rfl | hg
  · rw [apply_pc_self]
    exact hx
  · rw [apply_pc_ne hg]

/-- A step that sends nothing to `c` and leaves the write to it where it is. -/
theorem Streams.same (h : Streams s c) (hx : e.fiber.control.part c = (s.pc f).part c)
    (hb : e.broken c = s.broken c) (hev : e.events.filterMap (Event.pieceTo c) = []) :
    Streams (s.apply f e) c := by
  have hparts := part_apply hx
  obtain ⟨us, part, hstream, hstate⟩ := h
  refine ⟨us, part, ?_, ?_⟩
  · rw [stream_apply, hev, List.flatten_nil, List.append_nil]
    exact hstream
  · rw [show (s.apply f e).broken c = s.broken c from hb]
    rcases hstate with ⟨hok, g, hpart, hrest⟩ | hbroken
    · exact .inl ⟨hok, g, by rw [hparts]; exact hpart, fun g' hg' => by rw [hparts]; exact hrest g' hg'⟩
    · exact .inr hbroken

/-- **A write goes on** by one piece. -/
theorem Streams.sends (hL : Locks s) (hU : Units (s.pc f)) (hC : RepliesApart s (.act f a)) {dest : ConnId}
    {rest piece rest' : Bytes} {todo : List (ConnId × Bytes)} {k : After} (h : Streams s dest)
    (hc : s.pc f = .send dest rest todo k) (hn : ∃ n, a = .send n) (hdest : s.broken dest = false)
    (hrest : rest = piece ++ rest') (hend : rest' = [] ∧ e.fiber.control = .write todo k ∨
      rest' ≠ [] ∧ e.fiber.control = .send dest rest' todo k)
    (hb : e.broken = s.broken) (hev : e.events = [.sent dest piece]) : Streams (s.apply f e) dest := by
  obtain ⟨us, part, hstream, ⟨-, g, hpart, hrest'⟩ | ⟨hbroken, -⟩⟩ := h
  swap
  · rw [hdest] at hbroken
    cases hbroken
  have happart : ∀ g, g ≠ f → (s.pc g).part dest = [] := fun g hg => parts_apart hL hC hc hn hg
  have hmine : part = (s.pc f).part dest := by
    rcases eq_or_ne g f with rfl | hg
    · exact hpart
    · rw [hpart, happart g hg, hrest' f hg.symm]
  have hunit : part ++ (piece ++ rest') = k.unit := by
    have hsuffix := (hU.rest dest rest todo k hc).1
    rw [hmine, hc, ← hrest]
    exact part_send hsuffix
  have hgrown : (s.apply f e).stream dest = us.flatMap Whole.bytes ++ (part ++ piece) := by
    rw [stream_apply, hev, hstream, List.append_assoc]
    simp [Event.pieceTo]
  have hok : (s.apply f e).broken dest = false := by
    rw [← hdest, ← hb]
    rfl
  have hothers : ∀ g, g ≠ f → ((s.apply f e).pc g).part dest = [] := by
    intro g hg
    rw [apply_pc_ne hg]
    exact happart g hg
  rcases hend with ⟨rfl, hcontrol⟩ | ⟨hne, hcontrol⟩
  · -- the write is through: one more whole
    obtain ⟨u, hu⟩ := hU.whole k (by rw [hc]; rfl)
    refine ⟨us ++ [u], [], ?_, .inl ⟨hok, f, ?_, hothers⟩⟩
    · rw [hgrown, List.flatMap_append, List.flatMap_singleton, hu, ← hunit, List.append_nil, List.append_nil]
    · rw [apply_pc_self, hcontrol]
      rfl
  · refine ⟨us, part ++ piece, hgrown, .inl ⟨hok, f, ?_, hothers⟩⟩
    have hsuffix : rest' <:+ k.unit := ⟨part ++ piece, by rw [List.append_assoc]; exact hunit⟩
    have hcancel : (part ++ piece) ++ rest' = (Control.send dest rest' todo k).part dest ++ rest' := by
      rw [part_send hsuffix, List.append_assoc]
      exact hunit
    rw [apply_pc_self, hcontrol]
    exact List.append_cancel_right hcancel

/-- **A write fails**: what the socket has taken of it stays the end of the stream. -/
theorem Streams.fails (hU : ∀ f, Units (s.pc f)) {dest : ConnId} (h : Streams s dest)
    (hb : e.broken = Function.update s.broken dest true) (hev : e.events = []) :
    Streams (s.apply f e) dest := by
  obtain ⟨us, part, hstream, hstate⟩ := h
  have hwhole : ∃ u : Whole, part <+: u.bytes := by
    rcases hstate with ⟨-, g, rfl, -⟩ | ⟨-, hwhole⟩
    · exact exists_part (hU g)
    · exact hwhole
  refine ⟨us, part, ?_, .inr ⟨?_, hwhole⟩⟩
  · rw [stream_apply, hev, List.filterMap_nil, List.flatten_nil, List.append_nil]
    exact hstream
  · rw [show (s.apply f e).broken dest = e.broken dest from rfl, hb, Function.update_self]

theorem streams_move (hL : Locks s) (hU : ∀ f, Units (s.pc f)) (hC : RepliesApart s (.act f a))
    (hm : Moves s f a e) (h : Streams s c) : Streams (s.apply f e) c := by
  cases hm.sends (hU f) with
  | quiet hpart hb hev => exact h.same (hpart c) (by rw [hb]) (hev c)
  | @sends dest rest piece rest' todo k hc hn hdest hrest hend hb hev =>
    rcases eq_or_ne dest c with rfl | hne
    · exact h.sends hL (hU f) hC hc hn hdest hrest hend hb hev
    · refine h.same ?_ (by rw [hb]) ?_
      · rw [hc, part_send_ne hne]
        rcases hend with ⟨-, hcontrol⟩ | ⟨-, hcontrol⟩ <;> rw [hcontrol]
        · rfl
        · exact part_send_ne hne
      · rw [hev]
        simp [Event.pieceTo, hne]
  | @fails dest rest todo k hc hcontrol hb hev =>
    rcases eq_or_ne dest c with rfl | hne
    · exact h.fails hU hb hev
    · refine h.same ?_ (by rw [hb, Function.update_of_ne hne.symm]) (by rw [hev]; rfl)
      rw [hc, part_send_ne hne, hcontrol]
      rfl

theorem streams_of_reach (h : chatServer.Reach RepliesApart s) (c : ConnId) : Streams s c := by
  refine chat_inv (I := fun s => Streams s c) (J := fun s => Fresh s ∧ Locks s ∧ ∀ f, Units (s.pc f))
    (fun s hs => ⟨fresh_of_reach hs, locks_of_reach hs, units_of_reach hs⟩) ?_ ?_ ?_ h
  · exact ⟨[], [], rfl, .inl ⟨rfl, 0, rfl, fun _ _ => rfl⟩⟩
  · rintro s ⟨hF, -⟩ ⟨us, part, hstream, hstate⟩ -
    have hparts : ∀ g, (s.accepted.pc g).part c = (s.pc g).part c := hF.accepted (Control.part c) rfl
    refine ⟨us, part, hstream, ?_⟩
    rcases hstate with ⟨hok, f, hpart, hrest⟩ | hbroken
    · exact .inl ⟨hok, f, by rw [hparts]; exact hpart, fun g hg => by rw [hparts]; exact hrest g hg⟩
    · exact .inr hbroken
  · rintro s f a e ⟨-, hL, hU⟩ hi - hC hm
    exact streams_move hL hU hC hm hi

/-- **Writes do not tear**, in every run in which login replies and the writes of rooms do not overlap. -/
theorem untorn (h : chatServer.Reach RepliesApart s) : Untorn s := by
  intro c
  obtain ⟨us, part, hstream, hstate⟩ := streams_of_reach h c
  refine ⟨us, part, hstream, ?_⟩
  rcases hstate with ⟨-, f, rfl, -⟩ | ⟨hbroken, hwhole⟩
  · have hU := units_of_reach h f
    refine ⟨exists_part hU, ?_⟩
    by_cases hpart : (s.pc f).part c = []
    · exact .inl hpart
    · obtain ⟨rest, todo, k, hc⟩ := send_of_part hpart
      refine .inr (.inr ⟨f, rest, todo, k, hc, ?_⟩)
      rw [hc]
      exact part_send (hU.rest c rest todo k hc).1
  · exact ⟨hwhole, .inr (.inl hbroken)⟩

/-- A test for `RepliesApart`. -/
def repliesApart (s : Server) : Label → Bool
  | .act f (.send _) => match s.pc f with
    | .send dest _ _ _ => decide (∀ g < s.next, g ≠ f → (s.pc g).part dest = [])
    | _ => true
  | _ => true

theorem repliesApart_of_test (hF : Fresh s) {l : Label} (h : repliesApart s l = true) : RepliesApart s l := by
  unfold RepliesApart
  split
  · rintro dest rest todo k hc (g : ℕ) k' hg - -
    simp only [repliesApart, hc] at h
    rcases Nat.lt_or_ge g s.next with hlt | hge
    · exact of_decide_eq_true h g hlt hg
    · rw [Server.pc, hF.fibers g hge]
      rfl
  · trivial

/-- What three clients write to the first one comes whole, though one is switched out in the middle of a write. -/
theorem untorn_entered : ∃ s, chatServer.Reach RepliesApart s ∧ (s.stream 0).length = 1777 ∧ Untorn s := by
  obtain ⟨s, hs, hP⟩ := System.exists_reach (S := chatServer) (C := fun s l => repliesApart s l = true)
    (T := repliesApart) (P := fun s => decide ((s.stream 0).length = 1777)) Script.carolComes
    (fun _ _ _ h _ => h) (by decide +kernel)
  have hapart : chatServer.Reach RepliesApart s :=
    hs.mono_with (fun _ => fresh_of_reach) fun _ _ hF h => repliesApart_of_test hF h
  exact ⟨s, hapart, of_decide_eq_true hP, untorn hapart⟩

/-! ## A run that tears -/

/-- The length of a whole, by its first byte and its seventh. -/
def wholeLength (x : Bytes) : ℕ :=
  if x.getD 0 0 = 70 then 70 else if x.getD 0 0 = 0x26 then 294
  else if x.getD 6 0 = 0x53 then 14 else 13

theorem Whole.length_eq (u : Whole) (x : Bytes) :
    u.bytes.length = wholeLength (u.bytes ++ x) ∧ 6 < u.bytes.length := by
  cases u with
  | packet w =>
    have hlen := w.packet_length
    have h0 : (w.packet ++ x).getD 0 0 = w.header.getD 0 0 := by
      rw [List.getD_append _ _ _ _ (by omega), w.header_getD (by decide)]
    unfold wholeLength
    rw [Whole.bytes, h0]
    refine ⟨?_, by omega⟩
    cases w <;> exact hlen
  | loginSuccess | loginFailed | roomFull => exact ⟨rfl, by decide⟩

/-- **Wholes are a prefix code.** -/
theorem Whole.append_inj {u v : Whole} {x y : Bytes} (h : u.bytes ++ x = v.bytes ++ y) :
    u.bytes = v.bytes ∧ x = y := by
  refine List.append_inj h ?_
  rw [(u.length_eq x).1, (v.length_eq y).1, h]

/-- A stream of wholes that begins with one goes on with wholes. -/
theorem rest_of_wholes {us : List Whole} {u v : Whole} {part y : Bytes} (hy : y ≠ []) (hpart : part <+: u.bytes)
    (h : us.flatMap Whole.bytes ++ part = v.bytes ++ y) :
    ∃ us' : List Whole, us'.flatMap Whole.bytes ++ part = y := by
  cases us with
  | nil =>
    obtain ⟨z, hz⟩ := hpart
    rw [List.flatMap_nil, List.nil_append] at h
    rw [h, List.append_assoc, ← List.append_nil u.bytes] at hz
    have hnil := (Whole.append_inj hz).2
    exact absurd (List.append_eq_nil_iff.1 hnil).1 hy
  | cons u' us =>
    rw [List.flatMap_cons, List.append_assoc] at h
    exact ⟨us, (Whole.append_inj h).2⟩

/-- No whole begins with an "L" and an "F". -/
theorem Whole.not_torn {u : Whole} : ¬ [76, 70] <+: u.bytes := by
  rintro ⟨z, hz⟩
  have h0 : u.bytes.getD 0 0 = 76 := by rw [← hz]; rfl
  have h1 : u.bytes.getD 1 0 = 70 := by rw [← hz]; rfl
  cases u with
  | packet w =>
    rw [Whole.bytes, w.header_getD (by decide)] at h0
    cases w with
    | userList type userID1 userID2 => exact absurd h0 (by decide : (70 : UInt8) ≠ 76)
    | roomChat message senderID => exact absurd h0 (by decide : (0x26 : UInt8) ≠ 76)
  | loginSuccess | loginFailed | roomFull => exact absurd h1 (by decide)

/-- "alice" is in room 1 and logs in again; while one byte of the reply is sent, "bob" enters the room. -/
def Script.torn : List Label :=
  let order := [(ascii "alice", 0), (ascii "bob", 1)]
  [.accept, .accept] ++ loginAlice 0 ++ enter 0 1 [(ascii "alice", 0)] ++ [suspend 0] ++
    login 1 (ascii "bob") (ascii "pw") (.bulk (ascii "pw")) "Login Success!" ++ [suspend 1] ++
    [recv 0 (loginPacket (ascii "alice") (ascii "pw")), .act 0 (.reply (.bulk (ascii "pw"))), go 0,
      .act 0 (.send 1), suspend 0] ++
    [recv 1 (enterPacket 1), go 1, run 1 [], go 1, go 1, run 1 order, go 1, go 1, run 1 order, go 1,
      .act 1 (.send 1)]

/-- **A torn reply.** Behind the "L" of "Login Success!" stands the first byte of a user list. -/
theorem reply_torn : ∃ s, chatServer.Reachable s ∧
    s.stream 0 = ascii "Login Success!" ++ (userListBuffer 0 (ascii "alice") [] ++
      (chatBuffer (ascii "alice has entered the room.") (ascii "System") ++ [76, 70])) ∧ ¬ Untorn s := by
  obtain ⟨s, hs, hP⟩ := System.exists_reachable (S := chatServer)
    (P := fun s => decide (s.stream 0 = ascii "Login Success!" ++ (userListBuffer 0 (ascii "alice") [] ++
      (chatBuffer (ascii "alice has entered the room.") (ascii "System") ++ [76, 70]))))
    Script.torn (by decide +kernel)
  have hstream := of_decide_eq_true hP
  refine ⟨s, hs, hstream, fun h => ?_⟩
  obtain ⟨us, part, heq, ⟨u, hpart⟩, -⟩ := h 0
  have hne : ∀ l : Bytes, l ++ [76, 70] ≠ [] := fun l =>
    List.append_ne_nil_of_right_ne_nil l (List.cons_ne_nil _ _)
  obtain ⟨us₁, h₁⟩ := rest_of_wholes (v := .loginSuccess) (List.append_ne_nil_of_right_ne_nil _ (hne _)) hpart
    (heq.symm.trans hstream)
  obtain ⟨us₂, h₂⟩ := rest_of_wholes (v := .packet (.userList 0 (ascii "alice") [])) (hne _) hpart h₁
  obtain ⟨us₃, h₃⟩ := rest_of_wholes
    (v := .packet (.roomChat (ascii "alice has entered the room.") (ascii "System"))) (List.cons_ne_nil _ _)
    hpart h₂
  cases us₃ with
  | nil =>
    rw [List.flatMap_nil, List.nil_append] at h₃
    exact Whole.not_torn (h₃ ▸ hpart)
  | cons v us₃ =>
    have hlong := (v.length_eq []).2
    have hlen := congrArg List.length h₃
    rw [List.flatMap_cons, List.append_assoc, List.length_append] at hlen
    change _ = 2 at hlen
    omega

end SocketAcl
