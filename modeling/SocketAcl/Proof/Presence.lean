import SocketAcl.Proof.UserList
import Mathlib.Data.List.Chain

/-!
# Presence announcements

`EnterRoom` and `LeaveRoom` change the map in one critical section and announce it in another, and
no fiber gets in between: what is announced is what was changed, in the same order, with one
announcement outstanding at most (`Owes`).

* `Visible`: an accepted entry is one of a user who is not in the room, and a leave one of a user
  who is. The code checks neither.
* `presence`: in runs of visible steps the announcements alternate, and who is announced to have
  left was there.
-/

namespace SocketAcl

/-! ## Changes and announcements -/

/-- Entered, or left: what an event changes about `u` in room `r`. -/
def Event.change (r : Int32) (u : Bytes) : Event → Option Bool
  | .enter _ r' u' true => if r' = r ∧ u' = u then some true else none
  | .leave _ r' u' => if r' = r ∧ u' = u then some false else none
  | _ => none

/-- Entered, or left: what a `Broadcast` announces about `u` in room `r`. -/
def Site.announces (r : Int32) (u : Bytes) (r' : Int32) : Site → Option Bool
  | .entered u' => if r' = r ∧ u' = u then some true else none
  | .left u' => if r' = r ∧ u' = u then some false else none
  | _ => none

def Event.announcement (r : Int32) (u : Bytes) : Event → Option Bool
  | .broadcast _ site r' _ _ => site.announces r u r'
  | _ => none

def Call.announces (r : Int32) (u : Bytes) : Call → Option Bool
  | .broadcast site r' _ => site.announces r u r'
  | _ => none

/-- The accepted entries and the leaves of `u` in room `r`, in order. -/
def changes (r : Int32) (u : Bytes) (log : List Event) : List Bool := log.filterMap (Event.change r u)

/-- The announcements about `u` in room `r`, in order. -/
def announced (r : Int32) (u : Bytes) (log : List Event) : List Bool := log.filterMap (Event.announcement r u)

/-- Is `u` in room `r`, by the last entry or leave? -/
def member (r : Int32) (u : Bytes) (log : List Event) : Bool := (changes r u log).getLast?.getD false

/-- Entered and left in turn, entered first. -/
def Alternates (l : List Bool) : Prop := List.IsChain (· ≠ ·) (false :: l)

/-- `P` holds of each event and the log in front of it. -/
def Each (P : List Event → Event → Prop) (log : List Event) : Prop :=
  ∀ pre x post, log = pre ++ x :: post → P pre x

/-- **The announcements are consistent.** -/
structure Presence (s : Server) : Prop where
  alternate : ∀ r u, Alternates (announced r u s.log)
  /-- a `left` comes right behind the leave, of a user who was in the room -/
  left : Each (fun pre x => ∀ f u r buffer members, x = .broadcast f (.left u) r buffer members →
    ∃ pre', pre = pre' ++ [.leave f r u] ∧ member r u pre' = true) s.log

/-- **A visible change**: the user was not in the room it enters, or was in the room it leaves. -/
def Visible (s : Server) : Label → Prop
  | .act f _ =>
    match s.pc f with
    | .body (.enterRoom r u) _ _ => (enterRoom s.rooms r u f).1 = true → s.rooms.cell r u = none
    | .body (.leaveRoom r u) _ _ => s.rooms.cell r u ≠ none
    | _ => True
  | .accept => True

variable {s t : Server} {f g : ConnId} {a : Act} {e : Effect} {r : Int32} {u : Bytes} {log log' : List Event}
  {P : List Event → Event → Prop} {C : Server → Label → Prop}

theorem changes_append (log log' : List Event) : changes r u (log ++ log') = changes r u log ++ changes r u log' :=
  List.filterMap_append

theorem announced_append (log log' : List Event) :
    announced r u (log ++ log') = announced r u log ++ announced r u log' := List.filterMap_append

/-- What holds of each event holds of those that come. -/
theorem Each.append (h : Each P log) (h' : Each (fun pre x => P (log ++ pre) x) log') : Each P (log ++ log') := by
  intro pre x post heq
  rcases List.append_eq_append_iff.1 heq with ⟨mid, rfl, hlog'⟩ | ⟨mid, rfl, hcons⟩
  · exact h' mid x post hlog'
  · cases mid with
    | nil =>
      have := h' [] x post hcons.symm
      simpa using this
    | cons y mid =>
      obtain ⟨rfl, -⟩ := List.cons.inj hcons
      exact h pre x mid rfl

theorem each_nil : Each P [] := by
  intro pre x post h
  simp at h

theorem each_singleton {x : Event} (h : P [] x) : Each P [x] := by
  intro pre y post heq
  cases pre with
  | nil =>
    obtain ⟨rfl, -⟩ := List.cons.inj heq
    exact h
  | cons z pre => simp at heq

/-! ## Announcements follow the changes -/

/-- The calls not started yet. -/
def Control.ahead : Control → List Call
  | .lock call next _ => call :: next
  | c => c.pending

/-- The announcements about `u` in room `r` that a fiber owes. -/
def Control.owes (r : Int32) (u : Bytes) (c : Control) : List Bool := c.ahead.filterMap (Call.announces r u)

theorem ahead_ret (next : List Call) (tail : Tail) : (Control.ret next tail).ahead = next := by
  cases next with
  | nil => cases tail <;> rfl
  | cons call next => rfl

theorem ahead_subset (c : Control) : c.ahead ⊆ c.calls := by
  cases c with
  | write todo k | send dest rest todo k =>
    cases k with
    | login user => exact List.nil_subset _
    | unlock cur next tail => exact List.subset_cons_self _ _
  | body cur next tail | unlock cur next tail => exact List.subset_cons_self _ _
  | lock cur next tail => exact List.Subset.refl _
  | _ => exact List.nil_subset _

/-- Only `EnterRoom` and `LeaveRoom` announce. -/
theorem announces_inner {call : Call} (h : call.announces r u ≠ none) : call.inner = true := by
  cases call with
  | broadcast site r' buffer =>
    cases site with
    | chat => exact absurd rfl h
    | userList | entered u' | left u' => rfl
  | _ => exact absurd rfl h

/-- The handler's own calls announce nothing. -/
theorem announces_outer {call : Call} (h : call.inner = false) : call.announces r u = none := by
  by_contra hne
  rw [announces_inner hne] at h
  cases h

theorem owes_lock (call : Call) (next : List Call) (tail : Tail) : (Control.lock call next tail).owes r u =
    (call.announces r u).toList ++ next.filterMap (Call.announces r u) := by
  rw [Control.owes, Control.ahead, List.filterMap_cons]
  cases call.announces r u <;> rfl

theorem announced_acquired (call : Call) : announced r u (s.acquired f call) = (call.announces r u).toList := by
  cases call with
  | broadcast site r' buffer =>
    rw [Server.acquired, announced, List.filterMap_cons, Event.announcement, Call.announces]
    cases site.announces r u r' <;> rfl
  | _ => rfl

theorem changes_acquired (call : Call) : changes r u (s.acquired f call) = [] := by
  cases call <;> rfl

/-- **Balance of a step**: a change is owed, and what is announced was owed. -/
theorem Moves.balance (hO : (s.pc f).Outer) (hm : Moves s f a e) :
    (s.pc f).owes r u ++ changes r u e.events = announced r u e.events ++ e.fiber.control.owes r u := by
  cases hm with
  | @recv stack data hc h0 h256 =>
    rw [hc]
    rcases handle_control stack (s.ses f) (dispatch stack data) with ⟨v, t, hq⟩ | hq | ⟨call, hq, hi⟩
    · simp only [hq]
      rfl
    · simp only [hq]
      rfl
    · simp only [hq, owes_lock, announces_outer hi]
      rfl
  | eof hc =>
    rw [hc]
    simp only [Server.goto, Session.finish]
    split <;> rfl
  | @lock call next tail hc ho =>
    rw [hc, owes_lock, changes_acquired, announced_acquired, List.append_nil]
    rfl
  | @enterRoom r' u' next tail order type hc ha =>
    rw [hc] at hO ⊢
    obtain rfl := hO rfl
    simp only [changes, Event.change, List.filterMap_cons, Server.goto, Control.owes, Control.ahead, Control.pending,
      afterEnter, broadcastMessage, List.append_nil, Call.announces, Site.announces, List.filterMap_nil]
    split <;> rfl
  | @leaveRoom r' u' next tail order type hc =>
    rw [hc] at hO ⊢
    obtain rfl := hO rfl
    simp only [changes, Event.change, List.filterMap_cons, Server.goto, Control.owes, Control.ahead, Control.pending,
      afterLeave, broadcastMessage, List.append_nil, Call.announces, Site.announces, List.filterMap_nil]
    split <;> rfl
  | unlock hc =>
    rw [hc]
    simp only [Control.owes, Server.goto, ahead_ret]
    exact List.append_nil _
  | loginOk hc _ | loginFailed hc _ | refused hc _ | listMissing hc _ | list hc _ _ | broadcastMissing hc _
  | broadcast hc _ _ | write hc | setUser hc | written hc | sendPart hc _ _ _ | sendAll hc _ _ | sendFail hc
  | delete hc =>
    rw [hc]
    exact List.append_nil _
  | suspend hr hb => exact List.append_nil _

/-- A step without the mutex changes and announces nothing while another fiber holds it. -/
theorem Moves.quiet (hL : Locks s) (hm : Moves s f a e) (hg : (s.pc g).holds = true) (hne : g ≠ f) :
    changes r u e.events = [] ∧ announced r u e.events = [] := by
  have hfree : s.owner ≠ none := by
    rw [(hL.holds g).1 hg]
    exact Option.some_ne_none g
  cases hm with
  | lock hc ho => exact absurd ho hfree
  | enterRoom hc ha => exact absurd (hL.unique hg (by rw [hc]; rfl)) hne
  | leaveRoom hc => exact absurd (hL.unique hg (by rw [hc]; rfl)) hne
  | _ => exact ⟨rfl, rfl⟩

/-- **One fiber owes**: what was changed and not announced yet. -/
def Owes (s : Server) : Prop := ∀ r u, ∃ g, (∀ g', g' ≠ g → (s.pc g').owes r u = []) ∧
  changes r u s.log = announced r u s.log ++ (s.pc g).owes r u

theorem owes_move (hL : Locks s) (hO : ∀ g, (s.pc g).Outer) (hI : Owes s) (ht : s.Turn f) (hm : Moves s f a e) :
    Owes (s.apply f e) := by
  intro r u
  obtain ⟨g, hothers, hbalance⟩ := hI r u
  have hstep := hm.balance (r := r) (u := u) (hO f)
  by_cases hg : (s.pc g).owes r u = []
  -- nobody owes: the one that moves may
  · have hnone : ∀ g', (s.pc g').owes r u = [] := fun g' => by
      by_cases hg' : g' = g
      · rw [hg', hg]
      · exact hothers g' hg'
    refine ⟨f, fun g' hg' => ?_, ?_⟩
    · rw [apply_pc_ne hg']
      exact hnone g'
    · rw [hnone f, List.nil_append] at hstep
      rw [apply_log, changes_append, announced_append, apply_pc_self, hbalance, hg, hstep, List.append_nil,
        List.append_assoc]
  · by_cases hf : g = f
    · subst hf
      refine ⟨g, fun g' hg' => ?_, ?_⟩
      · rw [apply_pc_ne hg']
        exact hothers g' hg'
      · rw [apply_log, changes_append, announced_append, apply_pc_self, hbalance, List.append_assoc, hstep,
          List.append_assoc]
    -- the one that owes holds the mutex
    · obtain ⟨b, hb⟩ := List.exists_mem_of_ne_nil _ hg
      obtain ⟨call, hcall, hann⟩ := List.mem_filterMap.1 hb
      have hinner : call.inner = true := announces_inner (by rw [hann]; exact Option.some_ne_none b)
      have hholds := hL.listing_holds (hO g) ht hf (ahead_subset _ hcall) hinner
      obtain ⟨hchanges, hannounced⟩ := hm.quiet (r := r) (u := u) hL hholds hf
      rw [hchanges, hannounced, List.append_nil, List.nil_append, hothers f (Ne.symm hf)] at hstep
      refine ⟨g, fun g' hg' => ?_, ?_⟩
      · by_cases hg'f : g' = f
        · rw [hg'f, apply_pc_self]
          exact hstep.symm
        · rw [apply_pc_ne hg'f]
          exact hothers g' hg'
      · rw [apply_log, changes_append, announced_append, hchanges, hannounced, apply_pc_ne hf, List.append_nil,
          List.append_nil]
        exact hbalance

theorem owes_of_reach (h : chatServer.Reach C s) : Owes s := by
  refine chat_inv (J := fun s => Locks s ∧ (∀ g, (s.pc g).Outer) ∧ Fresh s)
    (fun _ hs => ⟨locks_of_reach hs, outer_of_reach hs, fresh_of_reach hs⟩) ?_ ?_ ?_ h
  · exact fun r u => ⟨0, fun _ _ => rfl, rfl⟩
  · intro s hJ hI _ r u
    obtain ⟨g, hothers, hbalance⟩ := hI r u
    have hpc := hJ.2.2.accepted (Control.owes r u) rfl
    exact ⟨g, fun g' hg' => (hpc g').trans (hothers g' hg'), by rw [hpc]; exact hbalance⟩
  · exact fun s f a e hJ hI ht _ hm => owes_move hJ.1 hJ.2.1 hI ht hm

/-- What is announced is what was changed, up to the last change. -/
theorem announced_prefix (h : chatServer.Reach C s) (r : Int32) (u : Bytes) :
    announced r u s.log <+: changes r u s.log := by
  obtain ⟨g, -, hbalance⟩ := owes_of_reach h r u
  exact hbalance ▸ List.prefix_append _ _

/-! ## Changes alternate -/

/-- What a step changes about `u` in room `r`, in the log and in the map. -/
theorem Moves.change (hm : Moves s f a e) (r : Int32) (u : Bytes) :
    (changes r u e.events = [] ∧ e.rooms.cell r u = s.rooms.cell r u) ∨
    (∃ next tail, s.pc f = .body (.enterRoom r u) next tail ∧ (SocketAcl.enterRoom s.rooms r u f).1 = true ∧
      changes r u e.events = [true] ∧ e.rooms.cell r u = some f) ∨
    ∃ next tail, s.pc f = .body (.leaveRoom r u) next tail ∧ changes r u e.events = [false] ∧
      e.rooms.cell r u = none := by
  cases hm with
  | @enterRoom r' u' next tail order type hc ha =>
    by_cases hru : r' = r ∧ u' = u
    · obtain ⟨rfl, rfl⟩ := hru
      refine .inr (.inl ⟨next, tail, hc, ha, ?_, ?_⟩)
      · simp [changes, Event.change]
      · rw [cell_enterRoom ha, if_pos ⟨rfl, rfl⟩]
    · refine .inl ⟨?_, ?_⟩
      · simp [changes, Event.change, hru]
      · rw [cell_enterRoom ha, if_neg fun h => hru ⟨h.1.symm, h.2.symm⟩]
  | @leaveRoom r' u' next tail order type hc =>
    by_cases hru : r' = r ∧ u' = u
    · obtain ⟨rfl, rfl⟩ := hru
      refine .inr (.inr ⟨next, tail, hc, ?_, ?_⟩)
      · simp [changes, Event.change]
      · rw [cell_leaveRoom, if_pos ⟨rfl, rfl⟩]
    · refine .inl ⟨?_, ?_⟩
      · simp [changes, Event.change, hru]
      · rw [cell_leaveRoom, if_neg fun h => hru ⟨h.1.symm, h.2.symm⟩]
  | lock hc ho => exact .inl ⟨changes_acquired _, rfl⟩
  | _ => exact .inl ⟨rfl, rfl⟩

/-- Who is in a room, by the map and by the log. -/
theorem member_iff (h : chatServer.Reach C s) (r : Int32) (u : Bytes) :
    member r u s.log = (s.rooms.cell r u).isSome := by
  refine chat_inv (J := fun _ => True) (I := fun s => member r u s.log = (s.rooms.cell r u).isSome)
    (fun _ _ => trivial) (by simp [member, changes, Server.init]) (fun _ _ hI _ => hI) ?_ h
  intro s f a e _ hI _ _ hm
  unfold member at hI ⊢
  rw [apply_log, changes_append, apply_rooms]
  rcases hm.change r u with ⟨hch, hcell⟩ | ⟨_, _, -, -, hch, hcell⟩ | ⟨_, _, -, hch, hcell⟩
  · rw [hch, hcell, List.append_nil]
    exact hI
  · rw [hch, hcell, List.getLast?_append]
    rfl
  · rw [hch, hcell, List.getLast?_append]
    rfl

theorem alternates_snoc {l : List Bool} {b : Bool} (h : Alternates l) (hb : l.getLast?.getD false ≠ b) :
    Alternates (l ++ [b]) := by
  refine List.isChain_append.2 ⟨h, List.isChain_singleton b, fun x hx y hy => ?_⟩
  rw [List.getLast?_cons] at hx
  obtain rfl := Option.some.inj hx
  obtain rfl := Option.some.inj hy
  exact hb

/-- Behind visible changes, entries and leaves alternate. -/
theorem changes_alternate (h : chatServer.Reach Visible s) (r : Int32) (u : Bytes) : Alternates (changes r u s.log) := by
  refine chat_inv (C := Visible) (J := fun s => member r u s.log = (s.rooms.cell r u).isSome)
    (I := fun s => Alternates (changes r u s.log)) (fun _ hs => member_iff hs r u) (List.isChain_singleton _)
    (fun _ _ hI _ => hI) ?_ h
  intro s f a e hJ hI _ hC hm
  rw [apply_log, changes_append]
  rcases hm.change r u with ⟨hch, -⟩ | ⟨next, tail, hc, ha, hch, -⟩ | ⟨next, tail, hc, hch, -⟩
  · rw [hch, List.append_nil]
    exact hI
  · simp only [Visible, hc] at hC
    rw [hch]
    refine alternates_snoc hI ?_
    change member r u s.log ≠ true
    rw [hJ, hC ha]
    exact Bool.false_ne_true
  · simp only [Visible, hc] at hC
    rw [hch]
    refine alternates_snoc hI ?_
    change member r u s.log ≠ false
    rw [hJ, Option.isSome_iff_ne_none.2 hC]
    exact Bool.noConfusion

/-- Every leave is of a user in the room. -/
theorem leaves_of_members (h : chatServer.Reach Visible s) :
    Each (fun pre x => ∀ f r u, x = .leave f r u → member r u pre = true) s.log := by
  refine chat_inv (C := Visible) (J := fun s => ∀ r u, member r u s.log = (s.rooms.cell r u).isSome)
    (I := fun s => Each (fun pre x => ∀ f r u, x = .leave f r u → member r u pre = true) s.log)
    (fun _ hs => member_iff hs) each_nil (fun _ _ hI _ => hI) ?_ h
  intro s f a e hJ hI _ hC hm
  rw [apply_log]
  refine hI.append ?_
  cases hm with
  | @leaveRoom r u next tail order type hc =>
    refine each_singleton fun f' r' u' heq => ?_
    obtain ⟨rfl, rfl, rfl⟩ := Event.leave.inj heq
    simp only [Visible, hc] at hC
    rw [List.append_nil, hJ, Option.isSome_iff_ne_none.2 hC]
  | @lock call next tail hc ho =>
    cases call with
    | broadcast site r buffer => exact each_singleton fun f' r' u' heq => by cases heq
    | _ => exact each_nil
  | recv _ _ _ | loginOk _ _ | loginFailed _ _ | enterRoom _ _ | refused _ _ | write _ | sendPart _ _ _ _
  | sendAll _ _ _ | delete _ => exact each_singleton fun f' r' u' heq => by cases heq
  | _ => exact each_nil

/-! ## Behind each leave its announcement -/

/-- A fiber about to announce a leave has just made it, and nothing happened since. -/
def JustLeft (s : Server) : Prop := ∀ f u r buffer, .broadcast (.left u) r buffer ∈ (s.pc f).ahead →
  s.log.getLast? = some (.leave f r u) ∧ ∃ tail, s.pc f = .unlock (.leaveRoom r u) (afterLeave r u) tail ∨
    s.pc f = .lock (.broadcast (.left u) r buffer) [.sendUserListToAll r] tail

variable {buffer : Bytes}

/-- It goes on without being switched out. -/
theorem JustLeft.runs (h : JustLeft s) (hmem : .broadcast (.left u) r buffer ∈ (s.pc f).ahead) :
    (s.pc f).waits = false := by
  obtain ⟨-, tail, hc | hc⟩ := h f u r buffer hmem <;> rw [hc] <;> rfl

/-- In a critical section nothing of the kind is ahead, and no write is on its way. -/
theorem JustLeft.elsewhere (h : JustLeft s) (hu : ∀ cur next tail, s.pc f ≠ .unlock cur next tail)
    (hl : ∀ call next tail, s.pc f ≠ .lock call next tail) : .broadcast (.left u) r buffer ∉ (s.pc f).ahead := by
  intro hmem
  obtain ⟨-, tail, hc | hc⟩ := h f u r buffer hmem
  · exact hu _ _ _ hc
  · exact hl _ _ _ hc

/-- **A fiber's own step**: only a `LeaveRoom` puts such an announcement ahead. -/
theorem JustLeft.own (h : JustLeft s) (hL : Locks s) (hO : (s.pc f).Outer) (hm : Moves s f a e)
    (hmem : .broadcast (.left u) r buffer ∈ e.fiber.control.ahead) :
    (s.log ++ e.events).getLast? = some (.leave f r u) ∧
      ∃ tail, e.fiber.control = .unlock (.leaveRoom r u) (afterLeave r u) tail ∨
        e.fiber.control = .lock (.broadcast (.left u) r buffer) [.sendUserListToAll r] tail := by
  cases hm with
  | @leaveRoom r' u' next tail order type hc =>
    rw [hc] at hO
    obtain rfl := hO rfl
    have hleft : .broadcast (.left u) r buffer ∈ afterLeave r' u' := by
      rw [← List.append_nil (afterLeave r' u')]
      exact hmem
    rcases List.mem_cons.1 hleft with heq | hmem
    · cases heq
      exact ⟨List.getLast?_concat, tail, .inl rfl⟩
    · cases List.mem_singleton.1 hmem
  | @unlock cur next tail hc =>
    simp only [Server.goto, ahead_ret] at hmem
    obtain ⟨hlast, tail', hc' | hc'⟩ := h f u r buffer (by rw [hc]; exact hmem)
    · rw [hc] at hc'
      obtain ⟨-, rfl, rfl⟩ := Control.unlock.inj hc'
      refine ⟨(congrArg List.getLast? (List.append_nil s.log)).trans hlast, tail, .inr ?_⟩
      rcases List.mem_cons.1 hmem with heq | hmem
      · rw [heq]
        rfl
      · cases List.mem_singleton.1 hmem
    · rw [hc] at hc'
      cases hc'
  | @lock call next tail hc ho =>
    obtain ⟨-, tail', hc' | hc'⟩ := h f u r buffer (by rw [hc]; exact List.mem_cons_of_mem _ hmem)
    · rw [hc] at hc'
      cases hc'
    · rw [hc] at hc'
      obtain ⟨-, rfl, -⟩ := Control.lock.inj hc'
      cases List.mem_singleton.1 hmem
  | @recv stack data hc h0 h256 =>
    rcases handle_control stack (s.ses f) (dispatch stack data) with ⟨v, t, hq⟩ | hq | ⟨call, hq, hi⟩
    · simp only [hq] at hmem
      cases hmem
    · simp only [hq] at hmem
      cases hmem
    -- the handler's own calls announce nothing
    · simp only [hq] at hmem
      rw [← List.mem_singleton.1 hmem] at hi
      cases hi
  | eof hc =>
    simp only [Server.goto, Session.finish] at hmem
    split at hmem
    · cases List.mem_singleton.1 hmem
    · cases hmem
  | @enterRoom r' u' next tail order type hc ha =>
    rw [hc] at hO
    obtain rfl := hO rfl
    have hentered : .broadcast (.left u) r buffer ∈ afterEnter r' u' := by
      rw [← List.append_nil (afterEnter r' u')]
      exact hmem
    rcases List.mem_cons.1 hentered with heq | hmem
    · cases heq
    · cases List.mem_singleton.1 hmem
  | list hc hr he =>
    rcases List.mem_cons.1 hmem with heq | hmem
    · cases heq
    · exact absurd (by rw [hc]; exact hmem) (h.elsewhere (f := f) (by simp [hc]) (by simp [hc]))
  | suspend hr hb =>
    have hw := hL.waits_of_blocks hb
    rw [h.runs hmem] at hw
    cases hw
  | refused hc _ | listMissing hc _ | broadcastMissing hc _ | broadcast hc _ _ | write hc | setUser hc
  | written hc | sendPart hc _ _ _ | sendAll hc _ _ | sendFail hc =>
    exact absurd (by rw [hc]; exact hmem) (h.elsewhere (f := f) (by simp [hc]) (by simp [hc]))
  | loginOk hc _ | loginFailed hc _ | delete hc => cases hmem

theorem justLeft_of_reach (h : chatServer.Reach C s) : JustLeft s := by
  refine chat_inv (J := fun s => Locks s ∧ ∀ g, (s.pc g).Outer)
    (fun _ hs => ⟨locks_of_reach hs, outer_of_reach hs⟩) ?_ ?_ ?_ h
  · intro f u r buffer hmem
    cases hmem
  · intro s hJ hI _ f u r buffer hmem
    rcases eq_or_ne f s.next with rfl | hf
    · rw [accepted_pc_self] at hmem
      cases hmem
    · rw [accepted_pc_ne hf] at hmem ⊢
      exact hI f u r buffer hmem
  · intro s f a e hJ hI ht _ hm g u r buffer hmem
    by_cases hg : g = f
    · subst hg
      rw [apply_pc_self] at hmem ⊢
      exact hI.own hJ.1 (hJ.2 g) hm hmem
    -- the others wait
    · rw [apply_pc_ne hg] at hmem
      have hw := hJ.1.others_wait ht hg
      rw [hI.runs hmem] at hw
      cases hw

/-- Every `left` comes right behind the leave. -/
theorem left_behind (h : chatServer.Reach C s) : Each (fun pre x => ∀ f u r buffer members,
    x = .broadcast f (.left u) r buffer members → pre.getLast? = some (.leave f r u)) s.log := by
  refine chat_inv (J := JustLeft) (I := fun s => Each (fun pre x => ∀ f u r buffer members,
    x = .broadcast f (.left u) r buffer members → pre.getLast? = some (.leave f r u)) s.log)
    (fun _ => justLeft_of_reach) each_nil (fun _ _ hI _ => hI) ?_ h
  intro s f a e hJ hI _ _ hm
  rw [apply_log]
  refine hI.append ?_
  cases hm with
  | @lock call next tail hc ho =>
    cases call with
    | broadcast site r buffer =>
      refine each_singleton fun f' u' r' buffer' members heq => ?_
      obtain ⟨rfl, rfl, rfl, rfl, -⟩ := Event.broadcast.inj heq
      rw [List.append_nil]
      exact (hJ f u' r buffer (by rw [hc]; exact List.mem_cons_self)).1
    | _ => exact each_nil
  | recv _ _ _ | loginOk _ _ | loginFailed _ _ | enterRoom _ _ | refused _ _ | leaveRoom _ | write _
  | sendPart _ _ _ _ | sendAll _ _ _ | delete _ => exact each_singleton fun f' u' r' buffer' members heq => by cases heq
  | _ => exact each_nil

/-! ## Consistency -/

/-- **Presence announcements are consistent.** -/
theorem presence (h : chatServer.Reach Visible s) : Presence s where
  alternate := by
    intro r u
    obtain ⟨rest, hrest⟩ := announced_prefix h r u
    have hchanges : List.IsChain (· ≠ ·) ((false :: announced r u s.log) ++ rest) := by
      rw [List.cons_append, hrest]
      exact changes_alternate h r u
    exact hchanges.left_of_append
  left := by
    rintro pre x post hlog f u r buffer members rfl
    obtain ⟨pre', rfl⟩ := List.getLast?_eq_some_iff.1 (left_behind h pre _ post hlog f u r buffer members rfl)
    have hleave : s.log = pre' ++ .leave f r u :: .broadcast f (.left u) r buffer members :: post := by
      rw [hlog, List.append_assoc]
      rfl
    exact ⟨pre', rfl, leaves_of_members h pre' _ _ hleave f r u rfl⟩

/-- The test of `Visible`. -/
def visible (s : Server) : Label → Bool
  | .act f _ =>
    match s.pc f with
    | .body (.enterRoom r u) _ _ => decide ((enterRoom s.rooms r u f).1 = true → s.rooms.cell r u = none)
    | .body (.leaveRoom r u) _ _ => decide (s.rooms.cell r u ≠ none)
    | _ => true
  | .accept => true

theorem visible_of_test {l : Label} (h : visible s l = true) : Visible s l := by
  unfold visible at h
  unfold Visible
  split at h
  · split at h
    · exact of_decide_eq_true h
    · exact of_decide_eq_true h
    · trivial
  · trivial

/-- A client enters room 1 and hangs up: it is announced once each way. -/
theorem presence_entered : ∃ s, chatServer.Reach Visible s ∧ announced 1 (ascii "alice") s.log = [true, false] ∧
    Presence s := by
  obtain ⟨s, hs, hP⟩ := System.exists_reach (S := chatServer) (C := Visible) (T := visible)
    (P := fun s => decide (announced 1 (ascii "alice") s.log = [true, false]))
    (Script.aliceEnters ++ Script.hangUp 0) (fun _ _ _ h _ => visible_of_test h) (by decide +kernel)
  exact ⟨s, hs, of_decide_eq_true hP, presence hs⟩

/-- **Entered twice.** A client that asks for its own room again is announced to have entered again. -/
theorem entered_twice : ∃ s, chatServer.Reachable s ∧ announced 1 (ascii "alice") s.log = [true, true] ∧
    ¬ Presence s := by
  obtain ⟨s, hs, hP⟩ := System.exists_reachable (S := chatServer)
    (P := fun s => decide (announced 1 (ascii "alice") s.log = [true, true]))
    (Script.aliceEnters ++ Script.enter 0 1 [(ascii "alice", 0)]) (by decide +kernel)
  have htwice := of_decide_eq_true hP
  refine ⟨s, hs, htwice, fun h => ?_⟩
  have halternate := h.alternate 1 (ascii "alice")
  rw [htwice] at halternate
  revert halternate
  unfold Alternates
  decide

end SocketAcl
