import SocketAcl.Proof.Mutex

/-!
# A handler's session and its program point

What the local variables of a handler have to do with the calls it is in: `EnterRoom` and
`LeaveRoom` run with the session's room number and user ID, a user ID is a C string (it
holds no NUL), and login replies go to the handler's own connection.
-/

namespace SocketAcl

/-- The arguments of an `EnterRoom` that has not run its critical section yet. -/
def Control.entering : Control → Option (Int32 × Bytes)
  | .lock (.enterRoom r u) _ _ => some (r, u)
  | .body (.enterRoom r u) _ _ => some (r, u)
  | _ => none

/-- The arguments of a `LeaveRoom` that has not run its critical section yet. -/
def Control.leaving : Control → Option (Int32 × Bytes)
  | .lock (.leaveRoom r u) _ _ => some (r, u)
  | .body (.leaveRoom r u) _ _ => some (r, u)
  | _ => none

/-- Where the handler goes on behind these writes. -/
def After.tail : After → Tail
  | .login _ => .loop
  | .unlock _ _ tail => tail

/-- Where the handler goes on when the calls are done. -/
def Control.tail : Control → Tail
  | .lock _ _ tail => tail
  | .body _ _ tail => tail
  | .write _ k => k.tail
  | .send _ _ _ k => k.tail
  | .unlock _ _ tail => tail
  | .delete => .exit
  | _ => .loop

/-- The user ID to be stored behind these writes. -/
def After.user : After → Option Bytes
  | .login user => user
  | .unlock _ _ _ => none

/-- The user ID being authenticated, up to its store into the session. -/
def Control.user : Control → Option Bytes
  | .get u _ => some u
  | .write _ k => k.user
  | .send _ _ _ k => k.user
  | _ => none

/-- The connections still to be written to, the one being written to first. -/
def Control.targets : Control → List ConnId
  | .write todo _ => todo.map Prod.fst
  | .send dest _ todo _ => dest :: todo.map Prod.fst
  | _ => []

/-- A fiber's session fits its program point. -/
structure FiberOK (f : ConnId) (x : Fiber) : Prop where
  entering : ∀ r u, x.control.entering = some (r, u) → x.session = ⟨u, r⟩ ∧ u ≠ [] ∧ x.control.tail = .loop
  leaving : ∀ r u, x.control.leaving = some (r, u) →
    x.session = ⟨u, r⟩ ∧ r ≠ -1 ∧ u ≠ [] ∧ x.control.tail = .exit
  clean : 0 ∉ x.session.currentUserID
  user : ∀ u, x.control.user = some u → 0 ∉ u
  own : x.control.holds = false → ∀ c ∈ x.control.targets, c = f

variable {s t : Server} {f g : ConnId} {a : Act} {e : Effect} {C : Server → Label → Prop}

theorem handle_ok {ses : Session} (h : 0 ∉ ses.currentUserID) (stack : Stack) (req : Request) :
    FiberOK f ⟨(ses.handle stack req).1, (ses.handle stack req).2⟩ := by
  cases req with
  | login u t =>
    constructor <;>
      simp [Session.handle, Control.entering, Control.leaving, Control.user, Control.targets, h, cstr_no_nul]
  | roomEnter n =>
    simp only [Session.handle]
    split <;> constructor <;>
      simp_all [Control.entering, Control.leaving, Control.user, Control.targets, Control.tail]
  | roomChat m =>
    simp only [Session.handle]
    split <;> constructor <;>
      simp_all [Control.entering, Control.leaving, Control.user, Control.targets, broadcastMessage]
  | unknown id =>
    constructor <;> simp [Session.handle, Control.entering, Control.leaving, Control.user, Control.targets, h]

/-- Moving on to a point that enters and leaves nothing, with the session kept. -/
theorem FiberOK.move {x : Fiber} (hx : FiberOK f x) {c : Control} (he : c.entering = none)
    (hl : c.leaving = none) (hu : ∀ u, c.user = some u → x.control.user = some u)
    (ho : c.holds = false → ∀ d ∈ c.targets, d = f) : FiberOK f { x with control := c } where
  entering := fun r u h => by rw [he] at h; cases h
  leaving := fun r u h => by rw [hl] at h; cases h
  clean := hx.clean
  user := fun u h => hx.user u (hu u h)
  own := ho

theorem ret_quiet {next : List Call} (tail : Tail) (hp : ∀ call ∈ next, call.inner = true) :
    (Control.ret next tail).entering = none ∧ (Control.ret next tail).leaving = none ∧
      (Control.ret next tail).user = none ∧ (Control.ret next tail).targets = [] := by
  cases next with
  | nil => cases tail <;> exact ⟨rfl, rfl, rfl, rfl⟩
  | cons call next =>
    have hi := hp call List.mem_cons_self
    cases call with
    | enterRoom r u => cases hi
    | leaveRoom r u => cases hi
    | sendUserListToAll r => exact ⟨rfl, rfl, rfl, rfl⟩
    | broadcast site r buffer => exact ⟨rfl, rfl, rfl, rfl⟩

theorem Moves.fiberOK (hL : Locks s) (hx : FiberOK f (s.fibers f)) (hm : Moves s f a e) :
    FiberOK f e.fiber := by
  have hown := hx.own
  cases hm with
  | recv hc h0 h256 => exact handle_ok hx.clean _ _
  | eof hc =>
    unfold Session.finish
    split
    · rename_i hne
      refine ⟨fun r u h => (by cases h), fun r u h => ?_, hx.clean, fun u h => (by cases h),
        fun _ d hd => (by cases hd)⟩
      cases h
      exact ⟨rfl, hne.1, hne.2, rfl⟩
    · exact hx.move rfl rfl (fun u h => by cases h) (fun _ d hd => by cases hd)
  | loginOk hc hr =>
    refine hx.move rfl rfl (fun u h => ?_) (fun _ d hd => by simpa [Control.targets] using hd)
    rw [show (s.fibers f).control = _ from hc]
    exact h
  | loginFailed hc hr =>
    exact hx.move rfl rfl (fun u h => by cases h) (fun _ d hd => by simpa [Control.targets] using hd)
  -- the arguments of the method stay those of the session
  | lock hc ho =>
    rename_i call next tail
    have he := hx.entering
    have hl := hx.leaving
    rw [show (s.fibers f).control = _ from hc] at he hl
    refine ⟨?_, ?_, hx.clean, fun u h => (by cases h), fun _ d hd => (by cases hd)⟩
    · cases call with
      | enterRoom r u => exact he
      | _ => intro r u h; cases h
    · cases call with
      | leaveRoom r u => exact hl
      | _ => intro r u h; cases h
  | write hc =>
    rename_i dest data todo k
    rw [show (s.fibers f).control = _ from hc] at hown
    refine hx.move rfl rfl ?_ ?_
    · intro u h
      rw [show (s.fibers f).control = _ from hc]
      exact h
    · exact hown
  -- the stored ID is the C string that was compared
  | setUser hc =>
    rename_i user
    refine ⟨fun r u h => (by cases h), fun r u h => (by cases h), ?_, fun u h => (by cases h),
      fun _ d hd => (by cases hd)⟩
    cases user with
    | none => exact hx.clean
    | some u => exact hx.user u (by rw [show (s.fibers f).control = _ from hc]; rfl)
  | sendPart hc h0 hn hb =>
    rename_i dest rest todo k n
    rw [show (s.fibers f).control = _ from hc] at hown
    refine hx.move rfl rfl ?_ ?_
    · intro u h
      rw [show (s.fibers f).control = _ from hc]
      exact h
    · exact hown
  | sendAll hc h0 hb =>
    rename_i dest rest todo k
    rw [show (s.fibers f).control = _ from hc] at hown
    refine hx.move rfl rfl ?_ ?_
    · intro u h
      rw [show (s.fibers f).control = _ from hc]
      exact h
    · exact fun h d hd => hown h d (List.mem_cons_of_mem _ hd)
  | sendFail hc =>
    rename_i dest rest todo k
    rw [show (s.fibers f).control = _ from hc] at hown
    refine hx.move rfl rfl ?_ ?_
    · intro u h
      rw [show (s.fibers f).control = _ from hc]
      exact h
    · exact fun h d hd => hown h d (List.mem_cons_of_mem _ hd)
  | unlock hc =>
    rename_i cur next tail
    have hp : ∀ call ∈ next, call.inner = true := by
      have := hL.pending f
      rw [hc] at this
      exact this
    obtain ⟨he, hl, hu, ht⟩ := ret_quiet tail hp
    refine hx.move he hl ?_ ?_
    · intro u h
      rw [hu] at h; cases h
    · intro _ d hd
      rw [ht] at hd; cases hd
  | suspend hr hb => exact hx
  -- these two write to others, holding the mutex
  | refused hc ha => exact hx.move rfl rfl (fun u h => by cases h) (fun h => by cases h)
  | broadcast hc hr he => exact hx.move rfl rfl (fun u h => by cases h) (fun h => by cases h)
  | _ => exact hx.move rfl rfl (fun u h => by cases h) (fun _ d hd => by cases hd)

/-- Sessions fit program points in every run. -/
theorem fiberOK_of_reach (h : chatServer.Reach C s) : ∀ f, FiberOK f (s.fibers f) := by
  refine fiber_inv (J := Locks) (fun _ => locks_of_reach) ?_ ?_ ?_ h
  · intro f
    constructor <;> simp [Control.entering, Control.leaving, Control.user, Control.targets, Session.init]
  · intro f
    constructor <;> simp [Control.entering, Control.leaving, Control.user, Control.targets, Session.init]
  · exact fun s f a e hL hx _ hm => hm.fiberOK hL hx

end SocketAcl
