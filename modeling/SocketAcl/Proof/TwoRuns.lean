import SocketAcl.Proof.Mutex

/-!
# Two runs compared

* `observed`: what two runs are compared by. `choices`: what the environment decides for a fiber.
* `Without`: a schedule without the first request of a fiber, as far as each fiber has come.
* `Moves.alike`: a fiber that finds the same rooms makes the same move in another state.
* `Moves.queued`: in front of a `lock` of the handler's own a fiber has just read.
-/

namespace SocketAcl

/-! ## Schedules and logs -/

/-- What two runs are compared by: logins, changes of `rooms_`, broadcasts with the members they find,
writes, and connections deleted. -/
def Event.compared : Event → Bool
  | .recv _ _ _ => false
  | .sent _ _ => false
  | .enter _ _ _ accepted => accepted
  | _ => true

def observed (log : List Event) : List Event := log.filter Event.compared

/-- What the environment decides for fiber `g`, apart from when it is switched out. -/
def Label.choice (g : ConnId) : Label → Option Act
  | .act _ .suspend => none
  | .act g' a => if g' = g then some a else none
  | .accept => none

def choices (g : ConnId) (es : List Label) : List Act := es.filterMap (Label.choice g)

/-- What a read returns. -/
def Act.input : Act → Bool
  | .recv _ _ => true
  | .eof => true
  | _ => false

/-- What is decided for one request: the read, and the rest up to the next read. -/
def Pass (acts : List Act) : Prop :=
  ∃ input rest, acts = input :: rest ∧ input.input = true ∧ ∀ a ∈ rest, a.input = false

/-- `es'` is `es` without the first request of fiber `f`, in an order of its own. The last read of a fiber that
waits for the mutex in `t` may still be to come. -/
def Without (f : ConnId) (es : List Label) (t : Server) (es' : List Label) : Prop :=
  ∀ g, ∃ own late, choices g es = own ++ choices g es' ++ late ∧ (if g = f then Pass own else own = []) ∧
    (late = [] ∨ ∃ input call tail, late = [input] ∧ input.input = true ∧ t.pc g = .lock call [] tail)

/-- The same list, or the same without one `x`. -/
def Apart (x : Event) (l l' : List Event) : Prop := l = l' ∨ ∃ front back, l = front ++ x :: back ∧ l' = front ++ back

variable {s s' : Server} {g : ConnId} {a : Act} {e : Effect} {x : Fiber} {acts : List Act}

theorem observed_append (log log' : List Event) : observed (log ++ log') = observed log ++ observed log' :=
  List.filter_append log log'

theorem choices_append (g : ConnId) (es es' : List Label) : choices g (es ++ es') = choices g es ++ choices g es' :=
  List.filterMap_append

theorem choices_self (ha : a ≠ .suspend) : choices g [.act g a] = [a] := by
  cases a with
  | suspend => exact absurd rfl ha
  | _ => simp [choices, Label.choice]

theorem choices_ne {g' : ConnId} (hg : g' ≠ g) (a : Act) : choices g' [.act g a] = [] := by
  cases a <;> simp [choices, Label.choice, Ne.symm hg]

theorem Pass.append (h : Pass acts) (ha : a.input = false) : Pass (acts ++ [a]) := by
  obtain ⟨input, rest, rfl, hinput, hrest⟩ := h
  refine ⟨input, rest ++ [a], rfl, hinput, fun b hb => ?_⟩
  rcases List.mem_append.1 hb with hb | hb
  · exact hrest b hb
  · rw [List.mem_singleton.1 hb]
    exact ha

/-! ## Moves of the same fiber in two states -/

/-- What a read that returns leads to. -/
def Session.next (ses : Session) : Act → Option Fiber
  | .recv stack data =>
    if 0 < data.length ∧ data.length ≤ 256 then
      some ⟨(ses.handle stack (dispatch stack data)).1, (ses.handle stack (dispatch stack data)).2⟩
    else none
  | .eof => some ⟨ses, ses.finish⟩
  | _ => none

theorem Session.next_input {ses : Session} (h : ses.next a = some x) : a.input = true := by
  cases a with
  | recv stack data | eof => rfl
  | _ => cases h

/-- A read can return wherever the fiber reads. -/
theorem moves_of_next (hc : s.pc g = .read) (hx : (s.ses g).next a = some x) :
    ∃ e, Moves s g a e ∧ e.fiber = x ∧ e.rooms = s.rooms ∧ e.owner = s.owner ∧ e.running = some g ∧
      e.broken = s.broken ∧ observed e.events = [] := by
  cases a with
  | recv stack data =>
    simp only [Session.next] at hx
    split at hx
    · rename_i hlen
      obtain rfl := Option.some.inj hx
      exact ⟨_, .recv hc hlen.1 hlen.2, rfl, rfl, rfl, rfl, rfl, rfl⟩
    · cases hx
  | eof =>
    obtain rfl := Option.some.inj hx
    exact ⟨_, .eof hc, rfl, rfl, rfl, rfl, rfl, rfl⟩
  | _ => cases hx

/-- **In front of a handler's own call** a fiber is when a read has returned. -/
theorem Moves.queued (hL : Locks s) (hm : Moves s g a e) (ha : a ≠ .suspend) {call : Call} {next : List Call}
    {tail : Tail} (hq : e.fiber.control = .lock call next tail) (ho : call.inner = false) :
    next = [] ∧ s.pc g = .read ∧ (s.ses g).next a = some e.fiber ∧ e.rooms = s.rooms ∧ e.running = some g ∧
      e.broken = s.broken ∧ observed e.events = [] := by
  cases hm with
  | @recv stack data hc h0 h256 =>
    have hnext : next = [] := by
      rcases handle_control stack (s.ses g) (dispatch stack data) with ⟨v, t, h⟩ | h | ⟨call', h, -⟩ <;>
        simp only [h] at hq
      · cases hq
      · cases hq
      · exact (Control.lock.inj hq).2.1.symm
    exact ⟨hnext, hc, if_pos ⟨h0, h256⟩, rfl, rfl, rfl, rfl⟩
  | eof hc =>
    refine ⟨?_, hc, rfl, rfl, rfl, rfl, rfl⟩
    simp only [Server.goto, Session.finish] at hq
    split at hq
    · exact (Control.lock.inj hq).2.1.symm
    · cases hq
  | @unlock cur next' tail' hc =>
    simp only [Server.goto] at hq
    cases next' with
    | nil => cases tail' <;> cases hq
    | cons call' next' =>
      obtain ⟨rfl, -, -⟩ := Control.lock.inj hq
      have hinner := hL.pending g call' (by rw [hc]; exact List.mem_cons_self)
      rw [ho] at hinner
      cases hinner
  | suspend hr hb => exact absurd rfl ha
  | _ => cases hq

/-- The same effect in another state. -/
structure Alike (e e' : Effect) : Prop where
  fiber : e'.fiber = e.fiber
  rooms : e'.rooms = e.rooms
  running : e'.running = e.running
  broken : ∀ c, e'.broken c = true → e.broken c = true
  events : e'.events = e.events

/-- **A move in another state**, where the fiber is at the same point and finds the same rooms. -/
theorem Moves.alike (hm : Moves s g a e) (hsus : a ≠ .suspend) (hfiber : s'.fibers g = s.fibers g)
    (hrooms : s'.rooms = s.rooms) (howner : s.owner = none → s'.owner = none)
    (hbroken : ∀ c, s'.broken c = true → s.broken c = true) : ∃ e', Moves s' g a e' ∧ Alike e e' := by
  have hpc : ∀ {c : Control}, s.pc g = c → s'.pc g = c := fun hc => by
    rw [← hc, Server.pc, hfiber]
  have hgoto : ∀ c, Alike (s.goto g c) (s'.goto g c) := fun c =>
    ⟨by simp only [Server.goto, hfiber], hrooms, rfl, hbroken, rfl⟩
  have hopen : ∀ dest, s.broken dest = false → s'.broken dest = false := fun dest hb => by
    by_contra hb'
    rw [hbroken dest (by simpa using hb')] at hb
    cases hb
  cases hm with
  | recv hc h0 h256 =>
    refine ⟨_, .recv (hpc hc) h0 h256, ?_⟩
    simp only [Server.ses, hfiber]
    exact ⟨rfl, hrooms, rfl, hbroken, rfl⟩
  | eof hc =>
    refine ⟨_, .eof (hpc hc), ?_⟩
    simp only [Server.ses, hfiber]
    exact hgoto _
  | loginOk hc hr => exact ⟨_, .loginOk (hpc hc) hr, { hgoto _ with events := rfl }⟩
  | loginFailed hc hr => exact ⟨_, .loginFailed (hpc hc) hr, { hgoto _ with events := rfl }⟩
  | @lock call next tail hc ho =>
    refine ⟨_, .lock (hpc hc) (howner ho), { hgoto (.body call next tail) with events := ?_ }⟩
    cases call with
    | broadcast site r buffer => simp only [Server.acquired, hrooms]
    | _ => rfl
  | @enterRoom r u next tail order type hc ha =>
    refine ⟨_, .enterRoom (hpc hc) (by rw [hrooms]; exact ha),
      { hgoto (.unlock (.enterRoom r u) (afterEnter r u ++ next) tail) with rooms := ?_, events := rfl }⟩
    simp only [hrooms]
  | refused hc ha => exact ⟨_, .refused (hpc hc) (by rw [hrooms]; exact ha), { hgoto _ with events := rfl }⟩
  | @leaveRoom r u next tail order type hc =>
    refine ⟨_, .leaveRoom (hpc hc),
      { hgoto (.unlock (.leaveRoom r u) (afterLeave r u ++ next) tail) with rooms := ?_, events := rfl }⟩
    simp only [hrooms]
  | listMissing hc hr => exact ⟨_, .listMissing (hpc hc) (by rw [hrooms]; exact hr), hgoto _⟩
  | list hc hr he => exact ⟨_, .list (hpc hc) (by rw [hrooms]; exact hr) (by rw [hrooms]; exact he), hgoto _⟩
  | broadcastMissing hc hr => exact ⟨_, .broadcastMissing (hpc hc) (by rw [hrooms]; exact hr), hgoto _⟩
  | broadcast hc hr he =>
    exact ⟨_, .broadcast (hpc hc) (by rw [hrooms]; exact hr) (by rw [hrooms]; exact he), hgoto _⟩
  | write hc => exact ⟨_, .write (hpc hc), { hgoto _ with events := rfl }⟩
  | setUser hc =>
    refine ⟨_, .setUser (hpc hc), { hgoto .read with fiber := ?_ }⟩
    simp only [Server.ses, hfiber]
  | written hc => exact ⟨_, .written (hpc hc), hgoto _⟩
  | sendPart hc h0 hn hb => exact ⟨_, .sendPart (hpc hc) h0 hn (hopen _ hb), { hgoto _ with events := rfl }⟩
  | sendAll hc h0 hb => exact ⟨_, .sendAll (hpc hc) h0 (hopen _ hb), { hgoto _ with events := rfl }⟩
  | @sendFail dest rest todo k hc =>
    refine ⟨_, .sendFail (hpc hc), { hgoto (.write todo k) with broken := fun c => ?_ }⟩
    simp only [Function.update_apply]
    split
    · exact id
    · exact hbroken c
  | unlock hc => exact ⟨_, .unlock (hpc hc), { hgoto _ with }⟩
  | delete hc => exact ⟨_, .delete (hpc hc), { hgoto _ with running := rfl, events := rfl }⟩
  | suspend hr hb => exact absurd rfl hsus

end SocketAcl
