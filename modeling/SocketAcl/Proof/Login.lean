import SocketAcl.Spec.SharedCmd

/-!
# Concurrent logins

Nothing keeps the requests of two logins apart in the buffer and on the connection of the shared
command, nor hands a reply to the login that asked for it. `logins_apart`: a login is compared
with the value of its own user ID in every run that keeps the requests apart and takes the
replies in turn (`InTurn`).

The invariant is the queue of the unanswered requests: Redis has answered its first part, and
the rest stands on the wire, followed by the request that is half written (`Paired`).

`readGet` is a reader of such requests. With it `borrowed_password` is a run of two logins whose
replies are swapped.
-/

namespace SocketAcl

/-- Is the request of this login half written? -/
def Login.half : Login → Bool
  | .write _ _ sent => 0 < sent
  | _ => false

/-- **Logins in turn.** A fiber writes bytes of its own request only, while no other request is half
written, and takes a reply only if the oldest unanswered request is for its user ID. -/
def InTurn (s : Cmd) : CmdLabel → Prop
  | .write f n => ∀ userID authToken sent, s.logins f = .write userID authToken sent →
      (s.buffer.drop sent).take n = ((request userID).drop sent).take n ∧
        ∀ g, g ≠ f → (s.logins g).half = false
  | .reply f => ∀ userID authToken, s.logins f = .wait userID authToken → s.unanswered.head? = some userID
  | _ => True

/-- The bytes of the request that is half written, if there is one. -/
inductive Remainder (logins : ConnId → Login) : Bytes → Prop
  | none : (∀ g, (logins g).half = false) → Remainder logins []
  | half {f : ConnId} {userID authToken : Bytes} {sent : ℕ} : logins f = .write userID authToken sent →
      0 < sent → sent < (request userID).length → (∀ g, g ≠ f → (logins g).half = false) →
      Remainder logins ((request userID).take sent)

/-- **Replies and requests are paired**, and every comparison was with the value of its own key. -/
structure Paired (store : Bytes → Option RedisValue) (s : Cmd) : Prop where
  queue : ∃ answered asked rest, s.unanswered = answered ++ asked ∧ s.replies = answered.map (answer store) ∧
    s.wire = asked.flatMap request ++ rest ∧ Remainder s.logins rest
  log : ∀ f userID authToken reply, Event.login f userID authToken reply ∈ s.log → reply = answer store userID

variable {store : Bytes → Option RedisValue} {parse : Bytes → Option (Bytes × Bytes)} {s t : Cmd}
  {logins : ConnId → Login} {f : ConnId} {l : CmdLabel} {rest userID authToken : Bytes} {n sent : ℕ}

theorem request_pos (userID : Bytes) : 0 < (request userID).length := by
  simp [request, buildRequest, ascii]

/-- A login that is not half written, before and after, does not matter. -/
theorem Remainder.update {q : Login} (h : Remainder logins rest) (hf : (logins f).half = false)
    (hq : q.half = false) : Remainder (Function.update logins f q) rest := by
  have hother : ∀ g, (logins g).half = false → (Function.update logins f q g).half = false := by
    intro g hg
    rcases eq_or_ne g f with rfl | hgf
    · rwa [Function.update_self]
    · rwa [Function.update_of_ne hgf]
  cases h with
  | none hall => exact .none fun g => hother g (hall g)
  | @half g userID authToken sent hg h0 hlt hall =>
    have hgf : g ≠ f := by
      rintro rfl
      rw [hg] at hf
      exact absurd h0 (of_decide_eq_false hf)
    refine .half (by rw [Function.update_of_ne hgf]; exact hg) h0 hlt fun g' hg' => hother g' (hall g' hg')

/-- Where no other request is half written, the bytes are those of this one. -/
theorem Remainder.eq_take (h : Remainder logins rest) (hf : logins f = .write userID authToken sent)
    (hall : ∀ g, g ≠ f → (logins g).half = false) : rest = (request userID).take sent := by
  cases h with
  | none h =>
    have h0 : ¬ 0 < sent := by
      have := h f
      rw [hf] at this
      exact of_decide_eq_false this
    rw [Nat.eq_zero_of_not_pos h0, List.take_zero]
  | @half g userID' authToken' sent' hg h0 _ _ =>
    have hgf : g = f := by
      by_contra hgf
      have := hall g hgf
      rw [hg] at this
      exact absurd h0 (of_decide_eq_false this)
    subst hgf
    rw [hg] at hf
    cases hf
    rfl

/-- Redis reads nothing where no request has arrived whole. -/
theorem parse_remainder (hparse : InOrder parse) (h : Remainder logins rest) : parse rest = none := by
  cases h with
  | none _ => exact hparse.stable.part (hparse.whole []) (request_pos [])
  | half _ _ hlt _ => exact hparse.stable.part (hparse.whole _) hlt

theorem Paired.init : Paired store Cmd.init where
  queue := ⟨[], [], [], rfl, rfl, rfl, .none fun _ => rfl⟩
  log := fun _ _ _ _ h => by cases h

theorem Paired.step (hparse : InOrder parse) (hi : Paired store s) (hC : InTurn s l)
    (h : s.step store parse l = some t) : Paired store t := by
  obtain ⟨⟨answered, asked, rest, hun, hre, hwire, hrest⟩, hlog⟩ := hi
  cases l with
  | get f userID authToken =>
    simp only [Cmd.step] at h
    split at h
    · rename_i hf
      obtain rfl := Option.some.inj h
      have hnot : (s.logins f).half = false := by
        rw [hf]
        rfl
      exact ⟨⟨answered, asked, rest, hun, hre, hwire, hrest.update hnot rfl⟩, hlog⟩
    · cases h
  | write f n =>
    simp only [Cmd.step] at h
    split at h
    · rename_i userID authToken sent hf
      obtain ⟨hown, hall⟩ := hC userID authToken sent hf
      -- the bytes go on from those of the same request
      have hgo : s.wire ++ (s.buffer.drop sent).take n =
          asked.flatMap request ++ (request userID).take (sent + n) := by
        rw [hwire, hrest.eq_take hf hall, hown, List.append_assoc, ← List.take_add]
      have hall' : ∀ q g, g ≠ f → (Function.update s.logins f q g).half = false := by
        intro q g hg
        rw [Function.update_of_ne hg]
        exact hall g hg
      split at h
      · rename_i hlt
        obtain rfl := Option.some.inj h
        exact ⟨⟨answered, asked, _, hun, hre, hgo,
          .half (Function.update_self f _ s.logins) (by omega) hlt.2 (hall' _)⟩, hlog⟩
      · split at h
        · rename_i hlen
          obtain rfl := Option.some.inj h
          refine ⟨⟨answered, asked ++ [userID], [], ?_, hre, ?_, .none fun g => ?_⟩, hlog⟩
          · rw [hun, List.append_assoc]
          · rw [hgo, hlen, List.take_length, List.flatMap_append, List.flatMap_singleton, List.append_nil]
          · show (Function.update s.logins f _ g).half = false
            rcases eq_or_ne g f with rfl | hg
            · rw [Function.update_self]
              rfl
            · exact hall' _ g hg
        · cases h
    · cases h
  | redis =>
    simp only [Cmd.step] at h
    split at h
    · rename_i userID more hp
      obtain rfl := Option.some.inj h
      cases asked with
      | nil =>
        rw [hwire, List.flatMap_nil, List.nil_append, parse_remainder hparse hrest] at hp
        cases hp
      | cons first asked =>
        rw [hwire, List.flatMap_cons, List.append_assoc, hparse.stable.append (hparse.whole first)] at hp
        obtain ⟨rfl, rfl⟩ := Prod.mk.inj (Option.some.inj hp)
        refine ⟨⟨answered ++ [first], asked, rest, ?_, ?_, rfl, hrest⟩, hlog⟩
        · rw [hun, List.append_assoc]
          rfl
        · rw [hre, List.map_append]
          rfl
    · cases h
  | reply f =>
    simp only [Cmd.step] at h
    split at h
    · rename_i userID authToken reply replies hf hr
      obtain rfl := Option.some.inj h
      have hhead := hC userID authToken hf
      have hnot : (s.logins f).half = false := by
        rw [hf]
        rfl
      cases answered with
      | nil =>
        rw [hre] at hr
        cases hr
      | cons first answered =>
        -- the next reply is the one to the oldest request
        rw [hre, List.map_cons] at hr
        obtain ⟨hreply, hreplies⟩ := List.cons.inj hr
        rw [hun, List.cons_append, List.head?_cons] at hhead
        obtain rfl := Option.some.inj hhead
        refine ⟨⟨answered, asked, rest, ?_, hreplies.symm, hwire, hrest.update hnot rfl⟩, ?_⟩
        · rw [hun]
          rfl
        · intro g userID' authToken' reply' hg
          rcases List.mem_append.1 hg with hg | hg
          · exact hlog g userID' authToken' reply' hg
          · cases List.mem_singleton.1 hg
            exact hreply.symm
    · cases h

theorem paired_of_reach (hparse : InOrder parse) (h : (sharedCmd store parse).Reach InTurn s) : Paired store s :=
  h.inv Paired.init fun _ _ _ hi hC hs => hi.step hparse hC hs

/-- **Alone**, a login is compared with the value of its user ID. -/
theorem alone_eq (hparse : InOrder parse) (userID authToken : Bytes) :
    alone store parse userID authToken = some (loginOk (answer store userID) authToken) := by
  have hlen := request_pos userID
  simp [alone, System.run, sharedCmd, Cmd.step, Cmd.init, memcpy, hparse.whole]

/-- **Concurrent logins do not mix**, in every run in which they go on in turn: each comparison uses
the value Redis holds for its own user ID, and comes out as if the login had run alone. -/
theorem logins_apart (hparse : InOrder parse) (h : (sharedCmd store parse).Reach InTurn s) (f : ConnId)
    (userID authToken : Bytes) (reply : RedisReply) (hl : Event.login f userID authToken reply ∈ s.log) :
    reply = answer store userID ∧ alone store parse userID authToken = some (loginOk reply authToken) := by
  have hreply := (paired_of_reach hparse h).log f userID authToken reply hl
  rw [alone_eq hparse, hreply]
  exact ⟨rfl, rfl⟩

/-! ## A reader of `GET` requests -/

/-- The byte `c`. -/
def readByte (c : UInt8) : Bytes → Option (Unit × Bytes)
  | b :: rest => if b = c then some ((), rest) else none
  | [] => none

/-- The decimal digits up to `"\r\n"`, behind the number `n`. -/
def readNumber : ℕ → Bytes → Option (ℕ × Bytes)
  | n, 13 :: 10 :: rest => some (n, rest)
  | n, b :: rest => if 48 ≤ b.toNat ∧ b.toNat ≤ 57 then readNumber (10 * n + (b.toNat - 48)) rest else none
  | _, [] => none

/-- `n` bytes, with `"\r\n"` behind them. -/
def readBytes (n : ℕ) (m : Bytes) : Option (Bytes × Bytes) :=
  if n + 2 ≤ m.length then some (m.take n, m.drop (n + 2)) else none

/-- A number behind the byte `c`. -/
def readCount (c : UInt8) (m : Bytes) : Option (ℕ × Bytes) := (readByte c m).bind fun r => readNumber 0 r.2

/-- An argument: its length behind a `$`, and its bytes. -/
def readBulk (m : Bytes) : Option (Bytes × Bytes) := (readCount 36 m).bind fun r => readBytes r.1 r.2

/-- A request of two arguments, the first of them `GET`. -/
def readGet (m : Bytes) : Option (Bytes × Bytes) :=
  ((readCount 42 m).filter fun r => r.1 = 2).bind fun r =>
    ((readBulk r.2).filter fun r => r.1 = ascii "GET").bind fun r => readBulk r.2

theorem readNumber_digit {n : ℕ} {b : UInt8} (hb : 48 ≤ b.toNat ∧ b.toNat ≤ 57) (m : Bytes) :
    readNumber n (b :: m) = readNumber (10 * n + (b.toNat - 48)) m := by
  rw [readNumber, if_pos hb]
  rintro rest rfl
  exact absurd hb.1 (by decide)

/-- Digits are read as the number they write. -/
theorem readNumber_digits {cs : List Char} (hcs : ∀ c ∈ cs, c.isDigit) (n : ℕ) (rest : Bytes) :
    readNumber n (cs.map (fun c => UInt8.ofNat c.toNat) ++ (crlf ++ rest)) =
      some (Nat.ofDigitChars 10 cs n, rest) := by
  induction cs generalizing n with
  | nil => rw [Nat.ofDigitChars_nil]; rfl
  | cons c cs ih =>
    have hc : 48 ≤ c.toNat ∧ c.toNat ≤ 57 := by
      have := hcs c List.mem_cons_self
      simp only [Char.isDigit, Bool.and_eq_true, decide_eq_true_eq] at this
      exact ⟨UInt32.le_iff_toNat_le.1 this.1, UInt32.le_iff_toNat_le.1 this.2⟩
    have hbyte : (UInt8.ofNat c.toNat).toNat = c.toNat := by
      rw [UInt8.toNat_ofNat']
      exact Nat.mod_eq_of_lt (by omega)
    rw [List.map_cons, List.cons_append, readNumber_digit (by rw [hbyte]; exact hc), hbyte,
      ih fun c hc => hcs c (List.mem_cons_of_mem _ hc), Nat.ofDigitChars_cons]
    rfl

theorem readNumber_decimal (n : ℕ) (rest : Bytes) :
    readNumber 0 (decimal n ++ (crlf ++ rest)) = some (n, rest) := by
  have hdigits : ∀ c ∈ Nat.toDigits 10 n, c.isDigit := fun _ hc =>
    Nat.isDigit_of_mem_toDigits (by decide) (by decide) hc
  rw [decimal, readNumber_digits hdigits, Nat.ofDigitChars_ten_toDigits]

/-- An argument is read as it was put. -/
theorem readBulk_arg (arg rest : Bytes) :
    readBulk (ascii "$" ++ decimal arg.length ++ crlf ++ arg ++ crlf ++ rest) = some (arg, rest) := by
  have hcount : readCount 36 (ascii "$" ++ decimal arg.length ++ crlf ++ arg ++ crlf ++ rest) =
      some (arg.length, arg ++ (crlf ++ rest)) := by
    have := readNumber_decimal arg.length (arg ++ (crlf ++ rest))
    simp only [List.append_assoc] at this ⊢
    exact this
  have hbytes : readBytes arg.length (arg ++ (crlf ++ rest)) = some (arg, rest) := by
    unfold readBytes
    rw [if_pos (by simp only [List.length_append, crlf, List.length_cons, List.length_nil]; omega),
      List.take_left, List.drop_append, List.drop_of_length_le (by omega), Nat.add_sub_cancel_left]
    rfl
  rw [readBulk, hcount, Option.bind_some, hbytes]

theorem stable_readNumber (n : ℕ) : Stable (readNumber n) := by
  intro m v rest more h
  fun_induction readNumber n m with
  | case1 n m =>
    cases h
    rfl
  | case2 n b m hcr hb ih =>
    rw [List.cons_append, readNumber_digit hb]
    exact ih h
  | case3 => cases h
  | case4 => cases h

theorem stable_readByte (c : UInt8) : Stable (readByte c) := by
  intro m v rest more h
  cases m with
  | nil => cases h
  | cons b m =>
    rw [readByte] at h
    split at h
    · rename_i hb
      cases h
      rw [List.cons_append, readByte, if_pos hb]
    · cases h

theorem stable_readBytes (n : ℕ) : Stable (readBytes n) := by
  intro m v rest more h
  unfold readBytes at h ⊢
  split at h
  · cases h
    rw [if_pos (by rw [List.length_append]; omega), List.take_append_of_le_length (by omega),
      List.drop_append_of_le_length (by omega)]
  · cases h

theorem stable_readCount (c : UInt8) : Stable (readCount c) :=
  (stable_readByte c).bind fun _ => stable_readNumber 0

theorem stable_readBulk : Stable readBulk := (stable_readCount 36).bind stable_readBytes

theorem stable_readGet : Stable readGet :=
  ((stable_readCount 42).guard fun n => n = 2).bind fun _ =>
    (stable_readBulk.guard fun arg => arg = ascii "GET").bind fun _ => stable_readBulk

/-- **Such a reader takes the requests in order.** -/
theorem inOrder_readGet : InOrder readGet where
  whole := by
    intro userID
    have hcount : readCount 42 (request userID) = some (2, ascii "$" ++ decimal (ascii "GET").length ++ crlf ++
        ascii "GET" ++ crlf ++ (ascii "$" ++ decimal userID.length ++ crlf ++ userID ++ crlf ++ [])) := by
      have := readNumber_decimal [ascii "GET", userID].length (ascii "$" ++ decimal (ascii "GET").length ++ crlf ++
        ascii "GET" ++ crlf ++ (ascii "$" ++ decimal userID.length ++ crlf ++ userID ++ crlf ++ []))
      simp only [request, buildRequest, List.flatMap_cons, List.flatMap_nil, List.append_assoc] at this ⊢
      exact this
    have hget := readBulk_arg (ascii "GET") (ascii "$" ++ decimal userID.length ++ crlf ++ userID ++ crlf ++ [])
    have hkey := readBulk_arg userID []
    simp only [readGet, hcount, Option.filter_some, decide_true, if_true, Option.bind_some, hget, hkey]
  stable := stable_readGet

/-! ## Two logins at the same time -/

/-- A store with two users. -/
def pairStore (userID : Bytes) : Option RedisValue :=
  if userID = ascii "al" then some (.string (ascii "pw"))
  else if userID = ascii "bo" then some (.string (ascii "qw"))
  else none

/-- A run of two logins, as a list of labels: both requests are written, Redis answers them, and the
replies are taken in the given order. -/
def twoLogins (token₀ token₁ : Bytes) (first second : ConnId) : List CmdLabel :=
  [.get 0 (ascii "al") token₀, .write 0 20, .write 0 1, .get 1 (ascii "bo") token₁, .write 1 21,
    .redis, .redis, .reply first, .reply second]

/-- The fiber that moves. -/
def CmdLabel.fiber : CmdLabel → Option ConnId
  | .get f _ _ => some f
  | .write f _ => some f
  | .redis => none
  | .reply f => some f

/-- `InTurn`, as a test for two fibers. -/
def inTurn (s : Cmd) (l : CmdLabel) : Bool :=
  (l.fiber = none || l.fiber = some 0 || l.fiber = some 1) && match l with
  | .write f n => match s.logins f with
    | .write userID _ sent => (s.buffer.drop sent).take n = ((request userID).drop sent).take n &&
        (f = 0 || !(s.logins 0).half) && (f = 1 || !(s.logins 1).half)
    | _ => true
  | .reply f => match s.logins f with
    | .wait userID _ => s.unanswered.head? = some userID
    | _ => true
  | _ => true

/-- A step leaves the other fibers where they are. -/
theorem Cmd.step_logins (h : s.step store parse l = some t) {g : ConnId} (hg : l.fiber ≠ some g) :
    t.logins g = s.logins g := by
  have hne : ∀ {f : ConnId}, some f ≠ some g → g ≠ f := fun h heq => h (congrArg some heq.symm)
  cases l with
  | get f userID authToken =>
    simp only [Cmd.step] at h
    split at h
    · obtain rfl := Option.some.inj h
      exact Function.update_of_ne (hne hg) _ _
    · cases h
  | write f n =>
    simp only [Cmd.step] at h
    split at h
    · split at h
      · obtain rfl := Option.some.inj h
        exact Function.update_of_ne (hne hg) _ _
      · split at h
        · obtain rfl := Option.some.inj h
          exact Function.update_of_ne (hne hg) _ _
        · cases h
    · cases h
  | redis =>
    simp only [Cmd.step] at h
    split at h
    · obtain rfl := Option.some.inj h
      rfl
    · cases h
  | reply f =>
    simp only [Cmd.step] at h
    split at h
    · obtain rfl := Option.some.inj h
      exact Function.update_of_ne (hne hg) _ _
    · cases h

/-- Where only two fibers move and pass the test, logins are in turn. -/
theorem reach_inTurn (h : (sharedCmd store parse).Reach (fun s l => inTurn s l = true) s) :
    (sharedCmd store parse).Reach InTurn s := by
  have hout : ∀ s, (sharedCmd store parse).Reach (fun s l => inTurn s l = true) s →
      ∀ g : ℕ, 2 ≤ g → s.logins g = .out := by
    intro s hs
    refine hs.inv (I := fun s => ∀ g : ℕ, 2 ≤ g → s.logins g = .out) (fun _ _ => rfl) ?_
    intro s l t hi hT hstep g hg
    rw [Cmd.step_logins hstep ?_]
    · exact hi g hg
    · intro hl
      have hfiber := (Bool.and_eq_true_iff.1 hT).1
      simp only [hl, Bool.or_eq_true, decide_eq_true_eq] at hfiber
      rcases hfiber with (h | h) | h
      · cases h
      · cases h
        exact absurd hg (by decide)
      · cases h
        exact absurd hg (by decide)
  refine h.mono_with hout ?_
  intro s l hi hT
  have htest := (Bool.and_eq_true_iff.1 hT).2
  cases l with
  | get f userID authToken => trivial
  | redis => trivial
  | write f n =>
    intro userID authToken sent hf
    simp only [hf, Bool.and_eq_true, Bool.or_eq_true, Bool.not_eq_true', decide_eq_true_eq] at htest
    obtain ⟨⟨hown, h0⟩, h1⟩ := htest
    refine ⟨hown, fun g hg => ?_⟩
    match g with
    | 0 => exact h0.resolve_left fun h => hg h.symm
    | 1 => exact h1.resolve_left fun h => hg h.symm
    | g + 2 =>
      rw [hi (g + 2) (by omega)]
      rfl
  | reply f =>
    intro userID authToken hf
    simpa only [hf, decide_eq_true_eq] using htest

/-- Both logins are compared with their own values, although they run at the same time. -/
theorem logins_apart_two : ∃ s, (sharedCmd pairStore readGet).Reach InTurn s ∧
    Event.login 1 (ascii "bo") (ascii "qw") (.bulk (ascii "qw")) ∈ s.log ∧
      alone pairStore readGet (ascii "bo") (ascii "qw") = some true := by
  obtain ⟨s, hs, hP⟩ := System.exists_reach (S := sharedCmd pairStore readGet)
    (P := fun s => decide (Event.login 1 (ascii "bo") (ascii "qw") (.bulk (ascii "qw")) ∈ s.log))
    (T := inTurn) (twoLogins (ascii "pw") (ascii "qw") 0 1) (fun _ _ _ h _ => h) (by decide +kernel)
  have hreach := reach_inTurn hs
  have hlog := of_decide_eq_true hP
  exact ⟨s, hreach, hlog, (logins_apart inOrder_readGet hreach 1 _ _ _ hlog).2⟩

/-- **A borrowed password**: two logins wait at the same time and the second is resumed first. The first
is compared with the other user's password, passes with it, and would fail alone. -/
theorem borrowed_password : ∃ s, (sharedCmd pairStore readGet).Reachable s ∧
    Event.login 0 (ascii "al") (ascii "qw") (.bulk (ascii "qw")) ∈ s.log ∧
      answer pairStore (ascii "al") = .bulk (ascii "pw") ∧
      loginOk (.bulk (ascii "qw")) (ascii "qw") = true ∧
      alone pairStore readGet (ascii "al") (ascii "qw") = some false := by
  obtain ⟨s, hs, hP⟩ := System.exists_reachable (S := sharedCmd pairStore readGet)
    (P := fun s => decide (Event.login 0 (ascii "al") (ascii "qw") (.bulk (ascii "qw")) ∈ s.log))
    (twoLogins (ascii "qw") (ascii "qw") 1 0) (by decide +kernel)
  exact ⟨s, hs, of_decide_eq_true hP, by decide +kernel, by decide +kernel, by decide +kernel⟩

end SocketAcl
