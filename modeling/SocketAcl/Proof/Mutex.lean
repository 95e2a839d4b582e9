import SocketAcl.Proof.Steps

/-!
# Who holds `room_mutex_`, and when a fiber can be switched out

* `Locks`: the fiber that holds the mutex is the one whose program point lies between a
  `lock` and the matching `unlock`.
* A method called by another method (`Call.inner`) starts right behind an `unlock`, with no
  switch point before it: such a fiber still runs, and the mutex is free. So `EnterRoom` and
  `LeaveRoom` hold the mutex at every switch point from their first `lock` on.
-/

namespace SocketAcl

/-- Are these the writes of a method, made under the mutex? -/
def After.holds : After → Bool
  | .login _ => false
  | .unlock _ _ _ => true

/-- Program points between `lock` and `unlock`. -/
def Control.holds : Control → Bool
  | .body _ _ _ => true
  | .unlock _ _ _ => true
  | .write _ k => k.holds
  | .send _ _ _ k => k.holds
  | _ => false

/-- The method between whose `lock` and `unlock` this point lies. -/
def Control.within : Control → Option Call
  | .body call _ _ => some call
  | .write _ k => k.cur
  | .send _ _ _ k => k.cur
  | .unlock cur _ _ => some cur
  | _ => none

theorem Control.isSome_within (c : Control) : c.within.isSome = c.holds := by
  cases c with
  | write todo k | send dest rest todo k => cases k <;> rfl
  | _ => rfl

theorem Control.holds_of_within {c : Control} {call : Call} (h : c.within = some call) : c.holds = true := by
  rw [← c.isSome_within, h]
  rfl

/-- Calls made by `EnterRoom` or `LeaveRoom` or by a method these call, not by the handler. -/
def Call.inner : Call → Bool
  | .sendUserListToAll _ => true
  | .broadcast .chat _ _ => false
  | .broadcast _ _ _ => true
  | _ => false

/-- Program points at which a fiber can be switched out. -/
def Control.waits : Control → Bool
  | .read => true
  | .get _ _ => true
  | .send _ _ _ _ => true
  | .lock call _ _ => !call.inner
  | .done => true
  | _ => false

/-- The calls still to be made behind these writes. -/
def After.pending : After → List Call
  | .login _ => []
  | .unlock _ next _ => next

/-- The calls still to be made behind the current one. -/
def Control.pending : Control → List Call
  | .lock _ next _ => next
  | .body _ next _ => next
  | .write _ k => k.pending
  | .send _ _ _ k => k.pending
  | .unlock _ next _ => next
  | _ => []

/-- **The lock invariant.** -/
structure Locks (s : Server) : Prop where
  holds : ∀ f, (s.pc f).holds = true ↔ s.owner = some f
  runs : ∀ f, (s.pc f).waits = false → s.running = some f
  free : ∀ f call next tail, s.pc f = .lock call next tail → call.inner = true → s.owner = none
  pending : ∀ f, ∀ call ∈ (s.pc f).pending, call.inner = true

variable {s t : Server} {f g : ConnId} {a : Act} {e : Effect} {C : Server → Label → Prop}

/-- Where a fiber is left by its own step, as the lock invariant sees it. -/
structure Moves.Lands (s : Server) (f : ConnId) (e : Effect) : Prop where
  owner : e.owner = if e.fiber.control.holds then some f else if (s.pc f).holds then none else s.owner
  running : e.running = some f ∨ e.running = none ∧ e.fiber.control.waits = true
  lock : ∀ call next tail, e.fiber.control = .lock call next tail → call.inner = true → e.owner = none
  pending : ∀ call ∈ e.fiber.control.pending, call.inner = true
  /-- the mutex is only taken when it is free -/
  taken : e.fiber.control.holds = true → (s.pc f).holds = true ∨ s.owner = none

/-- A fiber is only ever switched out at a waiting point: in front of a method called by
another method the mutex is free. -/
theorem Locks.waits_of_blocks (hL : Locks s) (hb : (s.pc f).blocks s.owner = true) :
    (s.pc f).waits = true := by
  cases hc : s.pc f with
  | lock call next tail =>
    rw [hc] at hb
    cases hi : call.inner with
    | true =>
      have := hL.free f call next tail hc hi
      rw [this] at hb
      cases hb
    | false => simp [Control.waits, hi]
  | _ => simp_all [Control.blocks, Control.waits]

theorem handle_control (stack : Stack) (ses : Session) (req : Request) :
    (∃ u t, (ses.handle stack req).2 = .get u t) ∨ (ses.handle stack req).2 = .read ∨
      ∃ call, (ses.handle stack req).2 = .lock call [] .loop ∧ call.inner = false := by
  cases req with
  | login u t => exact .inl ⟨_, _, rfl⟩
  | roomEnter n =>
    simp only [Session.handle]
    split
    · exact .inr (.inr ⟨_, rfl, rfl⟩)
    · exact .inr (.inl rfl)
  | roomChat m =>
    simp only [Session.handle]
    split
    · exact .inr (.inr ⟨_, rfl, rfl⟩)
    · exact .inr (.inl rfl)
  | unknown id => exact .inr (.inl rfl)

theorem Moves.lands (hL : Locks s) (hm : Moves s f a e) : Moves.Lands s f e := by
  have hp := hL.pending f
  have ho := hL.holds f
  cases hm with
  -- a request leads to redis, back to the read, or to a `lock` of the handler's own
  | @recv stack data hc h0 h256 =>
    rcases handle_control stack (s.ses f) (dispatch stack data) with ⟨u, t, h⟩ | h | ⟨call, h, hi⟩ <;>
      constructor <;> simp_all [Control.holds, Control.pending, Server.goto]
  | eof hc =>
    unfold Session.finish
    split
    · constructor <;> simp_all [Control.holds, Control.pending, Server.goto, Call.inner]
    · constructor <;> simp_all [Control.holds, Control.pending, Server.goto]
  -- the next method called by this one finds the mutex free
  | unlock hc =>
    rename_i cur next tail
    rw [hc] at hp
    cases next with
    | nil => cases tail <;>
        constructor <;> simp [hc, Control.ret, Control.holds, Control.pending, Server.goto]
    | cons call next =>
      simp only [Control.pending, List.mem_cons, forall_eq_or_imp] at hp
      constructor <;> simp_all [Control.ret, Control.holds, Control.pending, Server.goto]
  | enterRoom hc ha =>
    constructor <;>
      simp_all [Control.holds, Control.pending, Server.goto, afterEnter, Call.inner, broadcastMessage]
  | leaveRoom hc =>
    constructor <;>
      simp_all [Control.holds, Control.pending, Server.goto, afterLeave, Call.inner, broadcastMessage]
  -- switched out: nothing else changes
  | suspend hr hb =>
    refine ⟨?_, .inr ⟨rfl, hL.waits_of_blocks hb⟩, hL.free f, hp, .inl⟩
    simp only [Server.goto]
    split <;> simp_all
  | list hc hr he =>
    constructor <;> simp_all [Control.holds, Control.pending, Server.goto, Call.inner]
  | _ =>
    constructor <;>
      simp_all [Control.holds, Control.waits, Control.pending, Server.goto, After.holds, After.pending]

/-- While fiber `f` moves, every other fiber is at a waiting point. -/
theorem Locks.others_wait (hL : Locks s) (ht : s.Turn f) (hg : g ≠ f) : (s.pc g).waits = true := by
  by_contra hw
  have hr := hL.runs g (by simpa using hw)
  rcases ht with h | h
  · rw [h] at hr; cases hr
  · rw [h] at hr; exact hg (Option.some.inj hr).symm

/-- A mover that does not hold the mutex does not take it from the holder. -/
theorem locks_move (hL : Locks s) (ht : s.Turn f) (hm : Moves s f a e) : Locks (s.apply f e) := by
  have hl := hm.lands hL
  have hfo := hL.holds f
  refine ⟨?_, ?_, ?_, ?_⟩
  -- who holds the mutex
  · intro g
    rw [apply_owner, hl.owner]
    rcases eq_or_ne g f with rfl | hg
    · rw [apply_pc_self]
      split
      · simp_all
      · split <;> simp_all
    · rw [apply_pc_ne hg]
      have hgo := hL.holds g
      split
      · rename_i hh
        rcases hl.taken hh with h | h
        · simp_all [hg.symm]
        · simp_all [hg.symm]
      · split
        · rename_i hh
          simp_all [hg.symm]
        · exact hgo
  · intro g
    rcases eq_or_ne g f with rfl | hg
    · rw [apply_pc_self, apply_running]
      intro hw
      rcases hl.running with h | ⟨-, h⟩
      · exact h
      · rw [hw] at h; cases h
    · rw [apply_pc_ne hg]
      intro hw
      rw [hL.others_wait ht hg] at hw
      cases hw
  · intro g call next tail hc hi
    rcases eq_or_ne g f with rfl | hg
    · rw [apply_pc_self] at hc
      exact hl.lock call next tail hc hi
    · rw [apply_pc_ne hg] at hc
      have hw := hL.others_wait ht hg
      rw [hc] at hw
      simp [Control.waits, hi] at hw
  · intro g
    rcases eq_or_ne g f with rfl | hg
    · rw [apply_pc_self]
      exact hl.pending
    · rw [apply_pc_ne hg]
      exact hL.pending g

theorem locks_accepted (hF : Fresh s) (hL : Locks s) : Locks s.accepted := by
  refine ⟨?_, ?_, ?_, ?_⟩
  · intro g
    rw [hF.accepted Control.holds rfl]
    exact hL.holds g
  · intro g
    rw [hF.accepted Control.waits rfl]
    exact hL.runs g
  · intro g call next tail hc hi
    rcases eq_or_ne g s.next with rfl | hg
    · rw [accepted_pc_self] at hc
      cases hc
    · rw [accepted_pc_ne hg] at hc
      exact hL.free g call next tail hc hi
  · intro g
    rw [hF.accepted Control.pending rfl]
    exact hL.pending g

/-- **The lock invariant holds in every run.** -/
theorem locks_of_reach (h : chatServer.Reach C s) : Locks s := by
  refine chat_inv (J := Fresh) (fun _ => fresh_of_reach) ?_ ?_ ?_ h
  · constructor <;> simp [Server.init, Server.pc, Control.holds, Control.waits, Control.pending]
  · exact fun s hF hL _ => locks_accepted hF hL
  · exact fun s f a e _ hL ht _ hm => locks_move hL ht hm

/-- **Mutual exclusion.** -/
theorem Locks.unique (hL : Locks s) (hf : (s.pc f).holds = true) (hg : (s.pc g).holds = true) : f = g := by
  have h1 := (hL.holds f).1 hf
  have h2 := (hL.holds g).1 hg
  rw [h1] at h2
  exact Option.some.inj h2

/-- While one fiber holds the mutex, the others leave `rooms_` alone. -/
theorem Locks.rooms_fixed (hL : Locks s) (hm : Moves s f a e) (hg : (s.pc g).holds = true) (hne : g ≠ f) :
    e.rooms = s.rooms := by
  rcases hm.rooms_cases with h | ⟨r, u, next, tail, hc, -⟩ | ⟨r, u, next, tail, hc, -⟩
  · exact h
  · exact absurd (hL.unique hg (by rw [hc]; rfl)) hne
  · exact absurd (hL.unique hg (by rw [hc]; rfl)) hne

end SocketAcl
