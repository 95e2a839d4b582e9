import SocketAcl.Proof.Tokens
import SocketAcl.Spec.RedisConsole

/-!
# What the Redis console reads in an iteration

Handlers are put together from extractions and sends, and what they read and log follows from the
parts (`Reads.bind`). Each loop has a lemma for each thing its iteration can find in the text:
it comes to the top of a loop (`Lands`), or it is stuck.

A loop whose extraction fails is left with its last value, which is no `q`: it stays stuck
(`stuck_step`). Only the loop of the scores clears the flag, and it goes on at the next line.
-/

namespace SocketAcl

namespace Redis

/-- The first word of a text, and what is behind it. -/
def firstWord (t : Bytes) : Option (Bytes × Bytes) := IStream.field? isSpace scanWord t

/-- What a command without a loop reads. -/
def plain (command : Bytes) : Option (List Token) :=
  if command = ascii "set" then some [.word, .word, .int]
  else if command = ascii "get" then some [.word]
  else if command = ascii "list_get" then some [.word, .int, .int]
  else if command = ascii "set_json" then some [.word, .word, .int, .word]
  else if command = ascii "get_json" then some [.word]
  else if command = ascii "list_push" ∨ command = ascii "hash" ∨ command = ascii "zset" then none
  else some []

/-- A field of a hash is followed by its value. -/
def Valued (t t' : Bytes) : Prop := Token.word.behind t = some t'

/-! ## Values that were read -/

/-- A push or an `HSET`. -/
def Command.carriesValue : Command → Bool
  | .lpush _ _ | .rpush _ _ | .hset _ _ _ => true
  | _ => false

def carriesValue : Console.Entry Command → Bool
  | .sent command => command.carriesValue
  | _ => false

/-- **Every value was read for its command**: the word it is stands right in front of it, and in front of the value
of a hash its field. -/
inductive Asked : List (Console.Entry Command) → Prop
  | nil : Asked []
  | other {e : Console.Entry Command} {log : List (Console.Entry Command)} :
      carriesValue e = false → Asked log → Asked (e :: log)
  | lpush {key value : Bytes} {log : List (Console.Entry Command)} :
      Asked log → Asked (.sent (.lpush key (cstr value)) :: .word value :: log)
  | rpush {key value : Bytes} {log : List (Console.Entry Command)} :
      Asked log → Asked (.sent (.rpush key (cstr value)) :: .word value :: log)
  | hset {key field value : Bytes} {log : List (Console.Entry Command)} :
      Asked log → Asked (.sent (.hset key (cstr field) (cstr value)) :: .word value :: .word field :: log)

/-- A value stands behind a word. -/
theorem Asked.behind_word {e : Console.Entry Command} {log : List (Console.Entry Command)} (h : Asked (e :: log))
    (he : carriesValue e = true) : ∃ w log', log = .word w :: log' := by
  cases h with
  | other hnone _ =>
    rw [hnone] at he
    cases he
  | lpush _ | rpush _ | hset _ => exact ⟨_, _, rfl⟩

/-- A handler that reads tokens of these types and sends no values. -/
structure Reads {α : Type} (ks : List Token) (handler : Handler α) : Prop where
  cin : ∀ c, (handler c).2.cin = after ks c.cin
  asked : ∀ c, Asked c.log → (handler c).2.cin.failed = false → Asked (handler c).2.log

section Reads

variable {α β : Type} {ks ks' : List Token} {x : Handler α} {f : α → Handler β}

theorem after_append (s : IStream UInt8) : after (ks ++ ks') s = after ks' (after ks s) := List.foldl_append

theorem Reads.bind (hx : Reads ks x) (hf : ∀ a, Reads ks' (f a)) : Reads (ks ++ ks') (x >>= f) where
  cin c := by
    rw [after_append, ← hx.cin c]
    exact (hf (x c).1).cin (x c).2
  asked c hA hok := by
    have hcin := (hf (x c).1).cin (x c).2
    change ((f (x c).1) (x c).2).2.cin.failed = false at hok
    -- nothing failed in front either
    have hmid : (x c).2.cin.failed = false := by
      cases hfailed : (x c).2.cin.failed with
      | false => rfl
      | true =>
        rw [hcin, after_failed hfailed, hfailed] at hok
        cases hok
    exact (hf (x c).1).asked (x c).2 (hx.asked c hA hmid) hok

theorem Reads.pure (a : α) : Reads [] (pure a : Handler α) := ⟨fun _ => rfl, fun _ hA _ => hA⟩

theorem Reads.send {command : Command} (h : command.carriesValue = false) : Reads [] (send command) :=
  ⟨fun _ => rfl, fun _ hA _ => .other h hA⟩

theorem Reads.getString (x : Bytes) : Reads [.word] (Console.getString x) where
  cin _ := Console.getString_cin x
  asked c hA hok := by
    rw [Console.getString, Console.extract_log hok]
    exact .other rfl hA

theorem Reads.getChar (x : UInt8) : Reads [.char] (Console.getChar x) where
  cin _ := Console.getChar_cin x
  asked c hA hok := by
    rw [Console.getChar, Console.extract_log hok]
    exact .other rfl hA

theorem Reads.getInt (x : Int32) : Reads [.int] (Console.getInt x) where
  cin _ := Console.getInt_cin x
  asked c hA hok := by
    rw [Console.getInt, Console.extract_log hok]
    exact .other rfl hA

end Reads

theorem handleString_reads : Reads [.word, .word, .int] handleString := by
  refine (Reads.getString []).bind fun key => (Reads.getString []).bind fun value => (Reads.getInt (-1)).bind fun ttl =>
    (Reads.send rfl).bind fun _ => ?_
  split
  · exact Reads.send rfl
  · exact Reads.pure ()

theorem handleGet_reads : Reads [.word] handleGet :=
  (Reads.getString []).bind fun _ => Reads.send rfl

theorem handleListGet_reads (locals : Locals) : Reads [.word, .int, .int] (handleListGet locals) :=
  (Reads.getString []).bind fun _ => (Reads.getInt _).bind fun _ => (Reads.getInt _).bind fun _ => Reads.send rfl

theorem handleSetJson_reads (locals : Locals) : Reads [.word, .word, .int, .word] (handleSetJson locals) :=
  (Reads.getString []).bind fun _ => (Reads.getString []).bind fun _ => (Reads.getInt _).bind fun _ =>
    (Reads.getString []).bind fun _ => Reads.send rfl

theorem handleGetJson_reads : Reads [.word] handleGetJson :=
  (Reads.getString []).bind fun _ => Reads.send rfl

theorem andBack_reads {ks : List Token} {handler : Handler Unit} (h : Reads ks handler) : Reads ks (andBack handler) := by
  have hbind := h.bind fun _ => Reads.pure Point.command
  rw [List.append_nil] at hbind
  exact hbind

/-- A command without a loop reads its tokens and comes back. -/
theorem dispatch_plain (locals : Locals) {command : Bytes} {ks : List Token} (h : plain command = some ks) :
    Reads ks (dispatch locals command) ∧ ∀ c, (dispatch locals command c).1 = .command := by
  unfold plain at h
  unfold dispatch
  split_ifs at h with hset hget hlist hsetJson hgetJson hloop
  · obtain rfl := Option.some.inj h
    rw [if_pos hset]
    exact ⟨andBack_reads handleString_reads, fun _ => rfl⟩
  · obtain rfl := Option.some.inj h
    rw [if_neg hset, if_pos hget]
    exact ⟨andBack_reads handleGet_reads, fun _ => rfl⟩
  · obtain rfl := Option.some.inj h
    subst hlist
    exact ⟨andBack_reads (handleListGet_reads locals), fun _ => rfl⟩
  · obtain rfl := Option.some.inj h
    subst hsetJson
    exact ⟨andBack_reads (handleSetJson_reads locals), fun _ => rfl⟩
  · obtain rfl := Option.some.inj h
    subst hgetJson
    exact ⟨andBack_reads handleGetJson_reads, fun _ => rfl⟩
  · obtain rfl := Option.some.inj h
    simp only [not_or] at hloop
    rw [if_neg hset, if_neg hget, if_neg hloop.1, if_neg hlist, if_neg hloop.2.1, if_neg hloop.2.2, if_neg hsetJson,
      if_neg hgetJson]
    exact ⟨Reads.pure _, fun _ => rfl⟩

/-! ## Iterations -/

/-- The five loops. -/
inductive Loop
  | command
  | push
  | hash
  | zset
  | score

/-- The program is in this loop, and what the loop compares with `q` is none. -/
def Point.At : Point → Loop → Prop
  | .command, .command => True
  | .push _ _ value, .push => value ≠ ascii "q"
  | .hash _ field _, .hash => field ≠ ascii "q"
  | .zset _ value _ _, .zset => value ≠ ascii "q"
  | .score _ value _ _, .score => value ≠ ascii "q"
  | _, _ => False

/-- Nothing can be extracted any more; the loops of `handle_zset` get there at the end of the text only. -/
def Loop.Dry : Loop → IStream UInt8 → Prop
  | .zset, cin | .score, cin => cin.rest = []
  | _, cin => cin.failed = true

/-- **Stuck**: a loop with nothing to extract, left with its last value. -/
def Stuck (s : State) : Prop := ∃ l, s.point.At l ∧ l.Dry s.console.cin

/-- An iteration that comes to the top of a loop with `t` still to read. -/
def Lands (s s' : State) (l : Loop) (t : Bytes) : Prop :=
  s'.point.At l ∧ s'.console.cin = ⟨t, false⟩ ∧ (Asked s.console.log → Asked s'.console.log)

variable {locals : Console Command → Locals} {s s' : State} {t t' : Bytes} {l : Loop}

theorem getString_some {x : Bytes} {c : Console Command} {w : Bytes} (hcin : c.cin = ⟨t, false⟩)
    (h : firstWord t = some (w, t')) : c.getString x = (w, ⟨⟨t', false⟩, .word w :: c.log⟩) :=
  Console.extract_some hcin h

theorem getString_none {x : Bytes} {c : Console Command} (hcin : c.cin = ⟨t, false⟩) (h : firstWord t = none) :
    c.getString x = (x, ⟨⟨[], true⟩, c.log⟩) := Console.extract_end (fun _ => rfl) hcin h

theorem word_behind : Token.word.behind t = (firstWord t).map Prod.snd := rfl

theorem firstWord_none (h : tokens [.word] t = none) : firstWord t = none := by
  by_contra hne
  obtain ⟨r, hr⟩ := Option.ne_none_iff_exists'.1 hne
  rw [tokens, word_behind, hr] at h
  cases h

/-! ### The command loop -/

theorem step_command (hat : s.point.At .command) : step locals s =
    if (s.console.getString []).1 = ascii "exit" then none
    else some (advance (dispatch (locals (s.console.getString []).2) (s.console.getString []).1)
      (s.console.getString []).2) := by
  obtain ⟨point, console⟩ := s
  cases point with
  | command => rfl
  | _ => exact hat.elim

theorem command_exit (hat : s.point.At .command) (hcin : s.console.cin = ⟨t, false⟩)
    (h : firstWord t = some (ascii "exit", t')) : step locals s = none := by
  rw [step_command hat, getString_some hcin h]
  rfl

/-- A command that begins with all it reads. -/
theorem command_plain {t₁ t₂ command : Bytes} {ks : List Token} (hat : s.point.At .command)
    (hcin : s.console.cin = ⟨t, false⟩) (h : firstWord t = some (command, t₁)) (hne : command ≠ ascii "exit")
    (hplain : plain command = some ks) (htokens : tokens ks t₁ = some t₂) :
    ∃ s', step locals s = some s' ∧ Lands s s' .command t₂ := by
  obtain ⟨hreads, hpoint⟩ := dispatch_plain (locals ⟨⟨t₁, false⟩, .word command :: s.console.log⟩) hplain
  rw [step_command hat, getString_some hcin h, if_neg hne]
  have hafter := (hreads.cin ⟨⟨t₁, false⟩, .word command :: s.console.log⟩).trans (after_some htokens)
  refine ⟨_, rfl, ?_, hafter, fun hA => ?_⟩
  · simp only [advance, hpoint, Point.At]
  · exact hreads.asked _ (.other rfl hA) (by rw [hafter])

/-- A command that misses something. -/
theorem command_misses {t₁ command : Bytes} {ks : List Token} (hat : s.point.At .command)
    (hcin : s.console.cin = ⟨t, false⟩) (h : firstWord t = some (command, t₁)) (hne : command ≠ ascii "exit")
    (hplain : plain command = some ks) (htokens : tokens ks t₁ = none) :
    ∃ s', step locals s = some s' ∧ Stuck s' := by
  obtain ⟨hreads, hpoint⟩ := dispatch_plain (locals ⟨⟨t₁, false⟩, .word command :: s.console.log⟩) hplain
  rw [step_command hat, getString_some hcin h, if_neg hne]
  refine ⟨_, rfl, .command, ?_, ?_⟩
  · simp only [advance, hpoint, Point.At]
  · have hfailed := after_none htokens
    rw [← hreads.cin ⟨⟨t₁, false⟩, .word command :: s.console.log⟩] at hfailed
    exact hfailed

/-- The end of the text: an empty command, and the flag set. -/
theorem command_end (hat : s.point.At .command) (hcin : s.console.cin = ⟨t, false⟩) (h : firstWord t = none) :
    ∃ s', step locals s = some s' ∧ Stuck s' := by
  rw [step_command hat, getString_none hcin h]
  exact ⟨_, rfl, .command, trivial, rfl⟩

theorem nil_ne_q : ([] : Bytes) ≠ ascii "q" := by decide +kernel

/-- A handler with a loop: what it reads first, and where it stands then. -/
structure Enters (ks : List Token) (l : Loop) (handler : Handler Point) : Prop where
  reads : Reads ks handler
  at_loop : ∀ c, (handler c).1.At l

theorem handleListPush_enters (locals : Locals) : Enters [.word, .char] .push (handleListPush locals) :=
  ⟨(Reads.getString []).bind fun _ => (Reads.getChar _).bind fun _ => Reads.pure _, fun _ => nil_ne_q⟩

theorem handleHash_enters : Enters [.word] .hash handleHash :=
  ⟨(Reads.getString []).bind fun _ => Reads.pure _, fun _ => nil_ne_q⟩

theorem handleZset_enters : Enters [.word] .zset handleZset :=
  ⟨(Reads.getString []).bind fun _ => Reads.pure _, fun _ => nil_ne_q⟩

variable (locals) in
/-- The command enters its loop. -/
theorem command_enters {t₁ t₂ command : Bytes} {ks : List Token} (hat : s.point.At .command)
    (hcin : s.console.cin = ⟨t, false⟩) (h : firstWord t = some (command, t₁)) (hne : command ≠ ascii "exit")
    (henters : ∀ locals, Enters ks l (dispatch locals command)) (htokens : tokens ks t₁ = some t₂) :
    ∃ s', step locals s = some s' ∧ Lands s s' l t₂ := by
  obtain ⟨hreads, hloop⟩ := henters (locals ⟨⟨t₁, false⟩, .word command :: s.console.log⟩)
  rw [step_command hat, getString_some hcin h, if_neg hne]
  have hafter := (hreads.cin ⟨⟨t₁, false⟩, .word command :: s.console.log⟩).trans (after_some htokens)
  exact ⟨_, rfl, hloop _, hafter, fun hA => hreads.asked _ (.other rfl hA) (by rw [hafter])⟩

/-- It misses something, and is stuck in its loop. -/
theorem command_enters_dry {t₁ command : Bytes} {ks : List Token} (hat : s.point.At .command)
    (hcin : s.console.cin = ⟨t, false⟩) (h : firstWord t = some (command, t₁)) (hne : command ≠ ascii "exit")
    (henters : ∀ locals, Enters ks l (dispatch locals command)) (hdry : l.Dry (after ks ⟨t₁, false⟩)) :
    ∃ s', step locals s = some s' ∧ Stuck s' := by
  obtain ⟨hreads, hloop⟩ := henters (locals ⟨⟨t₁, false⟩, .word command :: s.console.log⟩)
  rw [step_command hat, getString_some hcin h, if_neg hne]
  refine ⟨_, rfl, l, hloop _, ?_⟩
  rw [← hreads.cin ⟨⟨t₁, false⟩, .word command :: s.console.log⟩] at hdry
  exact hdry

/-! ### The loops of the handlers -/

theorem push_spec (key : Bytes) (action : UInt8) (value : Bytes) (c : Console Command) :
    (push key action value c).2.cin = c.cin ∧
      ∀ log, c.log = .word value :: log → Asked log → Asked (push key action value c).2.log := by
  unfold push
  split_ifs
  · refine ⟨rfl, fun log hlog hA => ?_⟩
    change Asked (_ :: c.log)
    rw [hlog]
    exact .lpush hA
  · refine ⟨rfl, fun log hlog hA => ?_⟩
    change Asked (_ :: c.log)
    rw [hlog]
    exact .rpush hA
  · refine ⟨rfl, fun log hlog hA => ?_⟩
    change Asked c.log
    rw [hlog]
    exact .other rfl hA

theorem pushLoop_eq (key : Bytes) (action : UInt8) (value : Bytes) (c : Console Command) :
    pushLoop key action value c =
      if (c.getString value).1 = ascii "q" then (.command, (c.getString value).2)
      else (.push key action (c.getString value).1, (push key action (c.getString value).1 (c.getString value).2).2) := by
  unfold pushLoop
  simp only [bind, StateT.bind]
  split_ifs <;> rfl

theorem hashLoop_eq (key field value : Bytes) (c : Console Command) :
    hashLoop key field value c =
      if (c.getString field).1 = ascii "q" then (.command, (c.getString field).2)
      else (.hash key (c.getString field).1 ((c.getString field).2.getString value).1,
        ((c.getString field).2.getString value).2.send
          (.hset (cstr key) (cstr (c.getString field).1) (cstr ((c.getString field).2.getString value).1))) := by
  unfold hashLoop
  simp only [bind, StateT.bind]
  split_ifs <;> rfl

theorem zsetLoop_eq (key value score : Bytes) (members : List (Bytes × Bytes)) (c : Console Command) :
    zsetLoop key value score members c =
      if (c.getString value).1 = ascii "q" then
        (.command, if members ≠ [] then (c.getString value).2.send (.zadd (cstr key) members) else (c.getString value).2)
      else (.score key (c.getString value).1 score members, (c.getString value).2) := by
  unfold zsetLoop
  simp only [bind, StateT.bind]
  split_ifs <;> rfl

theorem scoreLoop_eq (key value score : Bytes) (members : List (Bytes × Bytes)) (c : Console Command) :
    scoreLoop key value score members c =
      if (c.getDouble score).2.cin.failed then
        (.score key value (c.getDouble score).1 members, (c.getDouble score).2.clearLine)
      else (.zset key value (c.getDouble score).1 (setMember (cstr value) (c.getDouble score).1 members),
        (c.getDouble score).2) := by
  unfold scoreLoop
  simp only [bind, StateT.bind, get, getThe, MonadStateOf.get, StateT.get, pure]
  split_ifs <;> rfl

variable (locals) in
/-- In each of the loops, a step is an iteration of it. -/
theorem step_push (hat : s.point.At .push) : ∃ key action value, value ≠ ascii "q" ∧
    step locals s = some (advance (pushLoop key action value) s.console) := by
  obtain ⟨point, console⟩ := s
  cases point with
  | push key action value => exact ⟨key, action, value, hat, rfl⟩
  | _ => exact hat.elim

variable (locals) in
theorem step_hash (hat : s.point.At .hash) : ∃ key field value, field ≠ ascii "q" ∧
    step locals s = some (advance (hashLoop key field value) s.console) := by
  obtain ⟨point, console⟩ := s
  cases point with
  | hash key field value => exact ⟨key, field, value, hat, rfl⟩
  | _ => exact hat.elim

variable (locals) in
theorem step_zset (hat : s.point.At .zset) : ∃ key value score members, value ≠ ascii "q" ∧
    step locals s = some (advance (zsetLoop key value score members) s.console) := by
  obtain ⟨point, console⟩ := s
  cases point with
  | zset key value score members => exact ⟨key, value, score, members, hat, rfl⟩
  | _ => exact hat.elim

variable (locals) in
theorem step_score (hat : s.point.At .score) : ∃ key value score members, value ≠ ascii "q" ∧
    step locals s = some (advance (scoreLoop key value score members) s.console) := by
  obtain ⟨point, console⟩ := s
  cases point with
  | score key value score members => exact ⟨key, value, score, members, hat, rfl⟩
  | _ => exact hat.elim

theorem push_stop (hat : s.point.At .push) (hcin : s.console.cin = ⟨t, false⟩) (h : firstWord t = some (ascii "q", t')) :
    ∃ s', step locals s = some s' ∧ Lands s s' .command t' := by
  obtain ⟨key, action, value, -, hstep⟩ := step_push locals hat
  refine ⟨_, hstep, ?_⟩
  simp only [advance, pushLoop_eq, getString_some hcin h, if_true]
  exact ⟨trivial, rfl, fun hA => .other rfl hA⟩

theorem push_more {w : Bytes} (hat : s.point.At .push) (hcin : s.console.cin = ⟨t, false⟩)
    (h : firstWord t = some (w, t')) (hne : w ≠ ascii "q") : ∃ s', step locals s = some s' ∧ Lands s s' .push t' := by
  obtain ⟨key, action, value, -, hstep⟩ := step_push locals hat
  refine ⟨_, hstep, ?_⟩
  simp only [advance, pushLoop_eq, getString_some hcin h, if_neg hne]
  obtain ⟨hcin', hasked⟩ := push_spec key action w ⟨⟨t', false⟩, .word w :: s.console.log⟩
  exact ⟨hne, hcin', hasked s.console.log rfl⟩

theorem push_end (hat : s.point.At .push) (hcin : s.console.cin = ⟨t, false⟩) (h : firstWord t = none) :
    ∃ s', step locals s = some s' ∧ Stuck s' := by
  obtain ⟨key, action, value, hne, hstep⟩ := step_push locals hat
  refine ⟨_, hstep, .push, ?_⟩
  simp only [advance, pushLoop_eq, getString_none hcin h, if_neg hne]
  exact ⟨hne, congrArg IStream.failed (push_spec key action value ⟨⟨[], true⟩, s.console.log⟩).1⟩

theorem hash_stop (hat : s.point.At .hash) (hcin : s.console.cin = ⟨t, false⟩) (h : firstWord t = some (ascii "q", t')) :
    ∃ s', step locals s = some s' ∧ Lands s s' .command t' := by
  obtain ⟨key, field, value, -, hstep⟩ := step_hash locals hat
  refine ⟨_, hstep, ?_⟩
  simp only [advance, hashLoop_eq, getString_some hcin h, if_true]
  exact ⟨trivial, rfl, fun hA => .other rfl hA⟩

theorem hash_more {w t₁ : Bytes} (hat : s.point.At .hash) (hcin : s.console.cin = ⟨t, false⟩)
    (h : firstWord t = some (w, t₁)) (hne : w ≠ ascii "q") (hvalue : Valued t₁ t') :
    ∃ s', step locals s = some s' ∧ Lands s s' .hash t' := by
  obtain ⟨key, field, value, -, hstep⟩ := step_hash locals hat
  obtain ⟨⟨v, _⟩, hv, rfl⟩ := Option.map_eq_some_iff.1 hvalue
  have hvalue' := getString_some (c := ⟨⟨t₁, false⟩, .word w :: s.console.log⟩) (x := value) rfl hv
  refine ⟨_, hstep, ?_⟩
  simp only [advance, hashLoop_eq, getString_some hcin h, hvalue', if_neg hne]
  exact ⟨hne, rfl, .hset⟩

/-- A field without a value. -/
theorem hash_misses {w t₁ : Bytes} (hat : s.point.At .hash) (hcin : s.console.cin = ⟨t, false⟩)
    (h : firstWord t = some (w, t₁)) (hne : w ≠ ascii "q") (hvalue : firstWord t₁ = none) :
    ∃ s', step locals s = some s' ∧ Stuck s' := by
  obtain ⟨key, field, value, -, hstep⟩ := step_hash locals hat
  have hvalue' := getString_none (c := ⟨⟨t₁, false⟩, .word w :: s.console.log⟩) (x := value) rfl hvalue
  refine ⟨_, hstep, .hash, ?_⟩
  simp only [advance, hashLoop_eq, getString_some hcin h, hvalue', if_neg hne]
  exact ⟨hne, rfl⟩

theorem hash_end (hat : s.point.At .hash) (hcin : s.console.cin = ⟨t, false⟩) (h : firstWord t = none) :
    ∃ s', step locals s = some s' ∧ Stuck s' := by
  obtain ⟨key, field, value, hne, hstep⟩ := step_hash locals hat
  have hfailed : ((⟨⟨[], true⟩, s.console.log⟩ : Console Command).getString value) =
      (value, ⟨⟨[], true⟩, s.console.log⟩) := Console.extract_failed rfl
  refine ⟨_, hstep, .hash, ?_⟩
  simp only [advance, hashLoop_eq, getString_none hcin h, hfailed, if_neg hne]
  exact ⟨hne, rfl⟩

theorem zset_stop (hat : s.point.At .zset) (hcin : s.console.cin = ⟨t, false⟩) (h : firstWord t = some (ascii "q", t')) :
    ∃ s', step locals s = some s' ∧ Lands s s' .command t' := by
  obtain ⟨key, value, score, members, -, hstep⟩ := step_zset locals hat
  refine ⟨_, hstep, ?_⟩
  simp only [advance, zsetLoop_eq, getString_some hcin h, if_true]
  refine ⟨trivial, ?_, fun hA => ?_⟩
  · split <;> rfl
  · split
    · exact .other rfl (.other rfl hA)
    · exact .other rfl hA

theorem zset_more {w : Bytes} (hat : s.point.At .zset) (hcin : s.console.cin = ⟨t, false⟩)
    (h : firstWord t = some (w, t')) (hne : w ≠ ascii "q") : ∃ s', step locals s = some s' ∧ Lands s s' .score t' := by
  obtain ⟨key, value, score, members, -, hstep⟩ := step_zset locals hat
  refine ⟨_, hstep, ?_⟩
  simp only [advance, zsetLoop_eq, getString_some hcin h, if_neg hne]
  exact ⟨hne, rfl, fun hA => .other rfl hA⟩

theorem zset_end (hat : s.point.At .zset) (hcin : s.console.cin = ⟨t, false⟩) (h : firstWord t = none) :
    ∃ s', step locals s = some s' ∧ Stuck s' := by
  obtain ⟨key, value, score, members, hne, hstep⟩ := step_zset locals hat
  refine ⟨_, hstep, .score, ?_⟩
  simp only [advance, zsetLoop_eq, getString_none hcin h, if_neg hne]
  exact ⟨hne, rfl⟩

theorem score_here (hat : s.point.At .score) (hcin : s.console.cin = ⟨t, false⟩)
    (h : Token.double.behind t = some t') : ∃ s', step locals s = some s' ∧ Lands s s' .zset t' := by
  obtain ⟨key, value, score, members, hne, hstep⟩ := step_score locals hat
  obtain ⟨⟨v, _⟩, hv, rfl⟩ := Option.map_eq_some_iff.1 h
  have hread : s.console.getDouble score = (v, ⟨⟨_, false⟩, .double v :: s.console.log⟩) := Console.extract_some hcin hv
  refine ⟨_, hstep, ?_⟩
  simp only [advance, scoreLoop_eq, hread, Bool.false_eq_true, if_false]
  exact ⟨hne, rfl, fun hA => .other rfl hA⟩

/-- No score: the flag is cleared, and the line skipped. -/
theorem score_again (hat : s.point.At .score) (hcin : s.console.cin = ⟨t, false⟩)
    (h : Token.double.behind t = none) : ∃ s', step locals s = some s' ∧
      Lands s s' .score (IStream.skipLine 10 10000 (Token.double.after ⟨t, false⟩).rest) := by
  obtain ⟨key, value, score, members, hne, hstep⟩ := step_score locals hat
  have hafter : (s.console.getDouble score).2.cin = Token.double.after ⟨t, false⟩ := by
    rw [Console.getDouble_cin, hcin]
  have hfailed : (s.console.getDouble score).2.cin.failed = true := by
    rw [hafter]
    exact Token.after_none h
  refine ⟨_, hstep, ?_⟩
  simp only [advance, scoreLoop_eq, hfailed, if_true]
  refine ⟨hne, ?_, fun hA => ?_⟩
  · simp only [Console.clearLine, hafter]
  · simp only [Console.clearLine, Console.getDouble, Console.extract_log_failed hfailed]
    exact hA

/-! ## Stuck -/

variable (locals) in
theorem stuck_step (h : Stuck s) : ∃ s', step locals s = some s' ∧ Stuck s' := by
  obtain ⟨l, hat, hdry⟩ := h
  cases l with
  | command =>
    have hread : s.console.getString [] = ([], s.console) := Console.extract_failed hdry
    rw [step_command hat, hread]
    exact ⟨_, rfl, .command, trivial, hdry⟩
  | push =>
    obtain ⟨key, action, value, hne, hstep⟩ := step_push locals hat
    have hread : s.console.getString value = (value, s.console) := Console.extract_failed hdry
    refine ⟨_, hstep, .push, ?_⟩
    simp only [advance, pushLoop_eq, hread, if_neg hne]
    exact ⟨hne, (congrArg IStream.failed (push_spec key action value s.console).1).trans hdry⟩
  | hash =>
    obtain ⟨key, field, value, hne, hstep⟩ := step_hash locals hat
    have hfield : s.console.getString field = (field, s.console) := Console.extract_failed hdry
    have hvalue : s.console.getString value = (value, s.console) := Console.extract_failed hdry
    refine ⟨_, hstep, .hash, ?_⟩
    simp only [advance, hashLoop_eq, hfield, hvalue, if_neg hne]
    exact ⟨hne, hdry⟩
  | zset =>
    obtain ⟨key, value, score, members, hne, hstep⟩ := step_zset locals hat
    have hread : s.console.getString value = (value, ⟨⟨[], true⟩, s.console.log⟩) := Console.extract_nil hdry
    refine ⟨_, hstep, .score, ?_⟩
    simp only [advance, zsetLoop_eq, hread, if_neg hne]
    exact ⟨hne, rfl⟩
  | score =>
    obtain ⟨key, value, score, members, hne, hstep⟩ := step_score locals hat
    have hread : s.console.getDouble score = (score, ⟨⟨[], true⟩, s.console.log⟩) := Console.extract_nil hdry
    refine ⟨_, hstep, .score, ?_⟩
    simp only [advance, scoreLoop_eq, hread, if_true]
    exact ⟨hne, rfl⟩

end Redis

end SocketAcl
