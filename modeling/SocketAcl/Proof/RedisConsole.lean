import SocketAcl.Lib.Loop
import SocketAcl.Proof.RedisIteration

/-!
# When the Redis console ends

`Commands` is the standard input that ends the program: whole commands up to an `exit`, the loops of
the handlers up to a `q`. Where an input departs from it, an extraction fails, and the program is
stuck or skips lines for ever (`lost_step`).

* `stops_iff`: the program ends, and every value it pushes was read for that push, exactly if the
  standard input spells whole commands.
-/

namespace SocketAcl

open StateTransition

namespace Redis

/-! ## Whole commands -/

/-- Words up to a `q`, each followed by `R`. -/
inductive Until (R : Bytes → Bytes → Prop) : Bytes → Bytes → Prop
  | stop {t t' : Bytes} : firstWord t = some (ascii "q", t') → Until R t t'
  | more {t t₁ t₂ t' : Bytes} {w : Bytes} :
      firstWord t = some (w, t₁) → w ≠ ascii "q" → R t₁ t₂ → Until R t₂ t' → Until R t t'

/-- A member of a sorted set is followed by its score; lines that do not begin with one are skipped, in pieces of
10000 bytes. -/
inductive Scored : Bytes → Bytes → Prop
  | here {t t' : Bytes} : Token.double.behind t = some t' → Scored t t'
  | again {t t' : Bytes} :
      Token.double.behind t = none → Scored (IStream.skipLine 10 10000 (Token.double.after ⟨t, false⟩).rest) t' →
        Scored t t'

/-- **Whole commands** up to an `exit`: each is followed by all it reads. -/
inductive Commands : Bytes → Prop
  | exit {t t' : Bytes} : firstWord t = some (ascii "exit", t') → Commands t
  | plain {t t₁ t₂ : Bytes} {command : Bytes} {ks : List Token} :
      firstWord t = some (command, t₁) → command ≠ ascii "exit" → plain command = some ks → tokens ks t₁ = some t₂ →
        Commands t₂ → Commands t
  | listPush {t t₁ t₂ t₃ : Bytes} :
      firstWord t = some (ascii "list_push", t₁) → tokens [.word, .char] t₁ = some t₂ → Until Eq t₂ t₃ →
        Commands t₃ → Commands t
  | hash {t t₁ t₂ t₃ : Bytes} :
      firstWord t = some (ascii "hash", t₁) → tokens [.word] t₁ = some t₂ → Until Valued t₂ t₃ →
        Commands t₃ → Commands t
  | zset {t t₁ t₂ t₃ : Bytes} :
      firstWord t = some (ascii "zset", t₁) → tokens [.word] t₁ = some t₂ → Until Scored t₂ t₃ →
        Commands t₃ → Commands t

/-! ## Stuck and lost -/

variable {locals : Console Command → Locals} {s s' : State} {t t' : Bytes} {l : Loop}

/-- What ends the program, read in each of the loops. -/
def Rest : Loop → Bytes → Prop
  | .command, t => Commands t
  | .push, t => ∃ t', Until Eq t t' ∧ Commands t'
  | .hash, t => ∃ t', Until Valued t t' ∧ Commands t'
  | .zset, t => ∃ t', Until Scored t t' ∧ Commands t'
  | .score, t => ∃ t₁ t', Scored t t₁ ∧ Until Scored t₁ t' ∧ Commands t'

/-- The outcomes of an iteration with the flag not set: the program is left, or gets stuck, or comes to the top of a
loop. -/
def Outcome (locals : Console Command → Locals) (s : State) (l : Loop) (t : Bytes) : Prop :=
  (step locals s = none ∧ Rest l t) ∨
    ∃ s', step locals s = some s' ∧ (Stuck s' ∨ ∃ l' t', Lands s s' l' t' ∧ (Rest l' t' → Rest l t))

theorem Outcome.stuck (h : ∃ s', step locals s = some s' ∧ Stuck s') : Outcome locals s l t := by
  obtain ⟨s', hs', hstuck⟩ := h
  exact .inr ⟨s', hs', .inl hstuck⟩

theorem Outcome.lands {l' : Loop} (h : ∃ s', step locals s = some s' ∧ Lands s s' l' t')
    (hrest : Rest l' t' → Rest l t) : Outcome locals s l t := by
  obtain ⟨s', hs', hlands⟩ := h
  exact .inr ⟨s', hs', .inr ⟨l', t', hlands, hrest⟩⟩

theorem plain_eq_none {command : Bytes} (h : plain command = none) :
    command = ascii "list_push" ∨ command = ascii "hash" ∨ command = ascii "zset" := by
  unfold plain at h
  split_ifs at h with h1 h2 h3 h4 h5 h6
  exact h6

theorem command_outcome (hat : s.point.At .command) (hcin : s.console.cin = ⟨t, false⟩) :
    Outcome locals s .command t := by
  cases h : firstWord t with
  | none => exact .stuck (command_end hat hcin h)
  | some r =>
    obtain ⟨command, t₁⟩ := r
    by_cases hexit : command = ascii "exit"
    · subst hexit
      exact .inl ⟨command_exit hat hcin h, .exit h⟩
    cases hplain : plain command with
    | some ks =>
      cases htokens : tokens ks t₁ with
      | none => exact .stuck (command_misses hat hcin h hexit hplain htokens)
      | some t₂ =>
        exact .lands (command_plain hat hcin h hexit hplain htokens) fun hrest => .plain h hexit hplain htokens hrest
    | none =>
      rcases plain_eq_none hplain with rfl | rfl | rfl
      · cases htokens : tokens [.word, .char] t₁ with
        | none => exact .stuck (command_enters_dry hat hcin h hexit handleListPush_enters (after_none htokens))
        | some t₂ =>
          refine .lands (command_enters locals hat hcin h hexit handleListPush_enters htokens) ?_
          rintro ⟨t₃, huntil, hrest⟩
          exact .listPush h htokens huntil hrest
      · cases htokens : tokens [.word] t₁ with
        | none => exact .stuck (command_enters_dry hat hcin h hexit (fun _ => handleHash_enters) (after_none htokens))
        | some t₂ =>
          refine .lands (command_enters locals hat hcin h hexit (fun _ => handleHash_enters) htokens) ?_
          rintro ⟨t₃, huntil, hrest⟩
          exact .hash h htokens huntil hrest
      · cases htokens : tokens [.word] t₁ with
        | none =>
          have hdry : (after [.word] ⟨t₁, false⟩).rest = [] :=
            congrArg (fun r => r.2.rest) (IStream.extract_end (x := []) (fun _ => rfl) (firstWord_none htokens))
          exact .stuck (command_enters_dry hat hcin h hexit (fun _ => handleZset_enters) hdry)
        | some t₂ =>
          refine .lands (command_enters locals hat hcin h hexit (fun _ => handleZset_enters) htokens) ?_
          rintro ⟨t₃, huntil, hrest⟩
          exact .zset h htokens huntil hrest

variable (locals) in
/-- **One iteration.** -/
theorem step_outcome (hat : s.point.At l) (hcin : s.console.cin = ⟨t, false⟩) : Outcome locals s l t := by
  cases l with
  | command => exact command_outcome hat hcin
  | push =>
    cases h : firstWord t with
    | none => exact .stuck (push_end hat hcin h)
    | some r =>
      obtain ⟨w, t₁⟩ := r
      by_cases hq : w = ascii "q"
      · subst hq
        exact .lands (push_stop hat hcin h) fun hrest => ⟨t₁, .stop h, hrest⟩
      · refine .lands (push_more hat hcin h hq) ?_
        rintro ⟨t', huntil, hrest⟩
        exact ⟨t', .more h hq rfl huntil, hrest⟩
  | hash =>
    cases h : firstWord t with
    | none => exact .stuck (hash_end hat hcin h)
    | some r =>
      obtain ⟨w, t₁⟩ := r
      by_cases hq : w = ascii "q"
      · subst hq
        exact .lands (hash_stop hat hcin h) fun hrest => ⟨t₁, .stop h, hrest⟩
      · cases hvalue : firstWord t₁ with
        | none => exact .stuck (hash_misses hat hcin h hq hvalue)
        | some r =>
          have hvalued : Valued t₁ r.2 := by rw [Valued, word_behind, hvalue]; rfl
          refine .lands (hash_more hat hcin h hq hvalued) ?_
          rintro ⟨t', huntil, hrest⟩
          exact ⟨t', .more h hq hvalued huntil, hrest⟩
  | zset =>
    cases h : firstWord t with
    | none => exact .stuck (zset_end hat hcin h)
    | some r =>
      obtain ⟨w, t₁⟩ := r
      by_cases hq : w = ascii "q"
      · subst hq
        exact .lands (zset_stop hat hcin h) fun hrest => ⟨t₁, .stop h, hrest⟩
      · refine .lands (zset_more hat hcin h hq) ?_
        rintro ⟨t₂, t', hscored, huntil, hrest⟩
        exact ⟨t', .more h hq hscored huntil, hrest⟩
  | score =>
    cases h : Token.double.behind t with
    | none =>
      refine .lands (score_again hat hcin h) ?_
      rintro ⟨t₁, t', hscored, hrest⟩
      exact ⟨t₁, t', .again h hscored, hrest⟩
    | some t₁ =>
      refine .lands (score_here hat hcin h) ?_
      rintro ⟨t', hrest⟩
      exact ⟨t₁, t', .here h, hrest⟩

/-- The program is in one of its loops, nothing failed, and every value so far was read for its command. -/
def Running (s : State) : Prop := ∃ l t, s.point.At l ∧ s.console.cin = ⟨t, false⟩ ∧ Asked s.console.log

theorem Running.step_or_stuck (h : Running s) (hs : step locals s = some s') : Running s' ∨ Stuck s' := by
  obtain ⟨l, t, hat, hcin, hA⟩ := h
  rcases step_outcome locals hat hcin with ⟨hnone, -⟩ | ⟨u, hu, hstuck | ⟨l', t', hlands, -⟩⟩
  · rw [hnone] at hs
    cases hs
  · obtain rfl := Option.some.inj (hs.symm.trans hu)
    exact .inr hstuck
  · obtain rfl := Option.some.inj (hs.symm.trans hu)
    obtain ⟨hat', hcin', hasked⟩ := hlands
    exact .inl ⟨l', t', hat', hcin', hasked hA⟩

/-- **Lost**: the program is stuck, or what it has still to read does not end it. -/
def Lost (s : State) : Prop := Stuck s ∨ ∃ l t, s.point.At l ∧ s.console.cin = ⟨t, false⟩ ∧ ¬ Rest l t

theorem lost_step (h : Lost s) : ∃ s', step locals s = some s' ∧ Lost s' := by
  rcases h with hstuck | ⟨l, t, hat, hcin, hnot⟩
  · obtain ⟨s', hs', hstuck'⟩ := stuck_step locals hstuck
    exact ⟨s', hs', .inl hstuck'⟩
  · rcases step_outcome locals hat hcin with ⟨-, hrest⟩ | ⟨s', hs', hstuck | ⟨l', t', hlands, hrest⟩⟩
    · exact absurd hrest hnot
    · exact ⟨s', hs', .inl hstuck⟩
    · exact ⟨s', hs', .inr ⟨l', t', hlands.1, hlands.2.1, fun hrest' => hnot (hrest hrest')⟩⟩

/-- The program comes from `s` to the top of loop `l`, with `t` still to read. -/
def Comes (locals : Console Command → Locals) (s : State) (l : Loop) (t : Bytes) : Prop :=
  ∃ s', Reaches (step locals) s s' ∧ s'.point.At l ∧ s'.console.cin = ⟨t, false⟩

theorem Comes.of_step (h : ∃ s', step locals s = some s' ∧ Lands s s' l t) : Comes locals s l t := by
  obtain ⟨s', hs', hat, hcin, -⟩ := h
  exact ⟨s', .single hs', hat, hcin⟩

theorem Comes.trans {l' : Loop} (h : Comes locals s l t)
    (hrest : ∀ s', s'.point.At l → s'.console.cin = ⟨t, false⟩ → Comes locals s' l' t') : Comes locals s l' t' := by
  obtain ⟨s', hs', hat, hcin⟩ := h
  obtain ⟨s'', hs'', hat', hcin'⟩ := hrest s' hat hcin
  exact ⟨s'', hs'.trans hs'', hat', hcin'⟩

/-- A score is read, behind lines that begin with none. -/
theorem scored_comes (h : Scored t t') (hat : s.point.At .score) (hcin : s.console.cin = ⟨t, false⟩) :
    Comes locals s .zset t' := by
  induction h generalizing s with
  | here hread => exact .of_step (score_here hat hcin hread)
  | again hread _ ih => exact (Comes.of_step (score_again hat hcin hread)).trans fun s' hat' hcin' => ih hat' hcin'

/-- **A loop up to its `q`**, from what one iteration of it does. -/
theorem until_comes {R : Bytes → Bytes → Prop}
    (hstop : ∀ {s : State} {t t' : Bytes}, s.point.At l → s.console.cin = ⟨t, false⟩ →
      firstWord t = some (ascii "q", t') → ∃ s', step locals s = some s' ∧ Lands s s' .command t')
    (hmore : ∀ {s : State} {t t₁ t₂ w : Bytes}, s.point.At l → s.console.cin = ⟨t, false⟩ → firstWord t = some (w, t₁) →
      w ≠ ascii "q" → R t₁ t₂ → Comes locals s l t₂)
    (h : Until R t t') (hat : s.point.At l) (hcin : s.console.cin = ⟨t, false⟩) : Comes locals s .command t' := by
  induction h generalizing s with
  | stop hword => exact .of_step (hstop hat hcin hword)
  | more hword hne hR _ ih => exact (hmore hat hcin hword hne hR).trans fun s' hat' hcin' => ih hat' hcin'

theorem push_comes (h : Until Eq t t') (hat : s.point.At .push) (hcin : s.console.cin = ⟨t, false⟩) :
    Comes locals s .command t' := by
  refine until_comes push_stop (fun hat hcin h hne hR => ?_) h hat hcin
  subst hR
  exact .of_step (push_more hat hcin h hne)

theorem hash_comes (h : Until Valued t t') (hat : s.point.At .hash) (hcin : s.console.cin = ⟨t, false⟩) :
    Comes locals s .command t' :=
  until_comes hash_stop (fun hat hcin h hne hR => .of_step (hash_more hat hcin h hne hR)) h hat hcin

theorem zset_comes (h : Until Scored t t') (hat : s.point.At .zset) (hcin : s.console.cin = ⟨t, false⟩) :
    Comes locals s .command t' := by
  refine until_comes zset_stop (fun hat hcin h hne hR => ?_) h hat hcin
  exact (Comes.of_step (zset_more hat hcin h hne)).trans fun _ hat' hcin' => scored_comes hR hat' hcin'

/-- Where the program comes to, decides whether it ends. -/
theorem Comes.dom (h : Comes locals s l t)
    (hrest : ∀ s', s'.point.At l → s'.console.cin = ⟨t, false⟩ → (eval (step locals) s').Dom) :
    (eval (step locals) s).Dom := by
  obtain ⟨s', hs', hat, hcin⟩ := h
  exact (eval_dom_of_reaches hs').2 (hrest s' hat hcin)

/-- **Whole commands end.** -/
theorem ends_of_commands (h : Commands t) (hat : s.point.At .command) (hcin : s.console.cin = ⟨t, false⟩) :
    (eval (step locals) s).Dom := by
  induction h generalizing s with
  | exit hword => exact eval_dom_of_none (command_exit hat hcin hword)
  | plain hword hne hplain htokens _ ih =>
    exact (Comes.of_step (command_plain hat hcin hword hne hplain htokens)).dom fun s' hat' hcin' => ih hat' hcin'
  | listPush hword htokens huntil _ ih =>
    have henter := command_enters locals hat hcin hword (by decide +kernel) handleListPush_enters htokens
    exact ((Comes.of_step henter).trans fun s' hat' hcin' => push_comes huntil hat' hcin').dom
      fun s' hat' hcin' => ih hat' hcin'
  | hash hword htokens huntil _ ih =>
    have henter := command_enters locals hat hcin hword (by decide +kernel) (fun _ => handleHash_enters) htokens
    exact ((Comes.of_step henter).trans fun s' hat' hcin' => hash_comes huntil hat' hcin').dom
      fun s' hat' hcin' => ih hat' hcin'
  | zset hword htokens huntil _ ih =>
    have henter := command_enters locals hat hcin hword (by decide +kernel) (fun _ => handleZset_enters) htokens
    exact ((Comes.of_step henter).trans fun s' hat' hcin' => zset_comes huntil hat' hcin').dom
      fun s' hat' hcin' => ih hat' hcin'

/-- **The console stops with its input**: its loops make finitely many iterations, and every value pushed or set in a
hash was read for that command. -/
structure StopsWithInput (locals : Console Command → Locals) (text : Bytes) : Prop where
  ends : (eval (step locals) (.init text)).Dom
  asked : ∀ s, Reaches (step locals) (.init text) s → Asked s.console.log

/-- **The console stops with its input** exactly if the input spells whole commands up to an `exit`, whatever the
variables hold that are not initialised. -/
theorem stops_iff (locals : Console Command → Locals) (text : Bytes) : StopsWithInput locals text ↔ Commands text := by
  have hat : (State.init text).point.At .command := trivial
  constructor
  · intro h
    by_contra hnot
    exact not_eval_dom (fun _ => lost_step) (.inr ⟨.command, text, hat, rfl, hnot⟩) h.ends
  · intro h
    have hends : (eval (step locals) (.init text)).Dom := ends_of_commands h hat rfl
    refine ⟨hends, fun s hs => ?_⟩
    have hrunning : Running (.init text) := ⟨.command, text, hat, rfl, .nil⟩
    obtain ⟨_, _, -, -, hA⟩ :=
      reaches_inv_of_dom (fun _ _ => Running.step_or_stuck) (fun _ => stuck_step locals) hrunning hends hs
    exact hA

/-- One value is pushed before the input ends. -/
def pushOnce : Bytes := ascii "list_push k L v"

/-- What the variables hold at first does not matter here. -/
def zeroLocals : Console Command → Locals := fun _ => ⟨0, 0, 0, 0⟩

/-- Behind the value: `v` was read and pushed. -/
def pushedOnce : State :=
  ⟨.push (ascii "k") 0x4C (ascii "v"), ⟨⟨[], false⟩, [.sent (.lpush (ascii "k") (ascii "v")), .word (ascii "v"),
    .char 0x4C, .word (ascii "k"), .word (ascii "list_push")]⟩⟩

/-- One iteration later. -/
def pushedTwice : State :=
  ⟨.push (ascii "k") 0x4C (ascii "v"), ⟨⟨[], true⟩, .sent (.lpush (ascii "k") (ascii "v")) :: pushedOnce.console.log⟩⟩

/-- **The end of the input**: behind `list_push k L v` the value is pushed again and again. -/
theorem pushed_again : Reaches (step zeroLocals) (.init pushOnce) pushedTwice ∧ ¬ Asked pushedTwice.console.log ∧
    ¬ (eval (step zeroLocals) (.init pushOnce)).Dom ∧ ¬ StopsWithInput zeroLocals pushOnce := by
  have hreach : Reaches (step zeroLocals) (.init pushOnce) pushedTwice := by
    refine .head (b := ⟨.push (ascii "k") 0x4C [], ⟨⟨ascii " v", false⟩, [.char 0x4C, .word (ascii "k"),
      .word (ascii "list_push")]⟩⟩) rfl (.head (b := pushedOnce) rfl (.single rfl))
  have hasked : ¬ Asked pushedTwice.console.log := by
    intro h
    obtain ⟨w, log, hlog⟩ := h.behind_word rfl
    cases hlog
  have hv : ascii "v" ≠ ascii "q" := by decide +kernel
  have hstuck : Stuck pushedTwice := ⟨.push, hv, rfl⟩
  have hspins : ¬ (eval (step zeroLocals) (.init pushOnce)).Dom := fun hends =>
    not_eval_dom (fun _ => stuck_step zeroLocals) hstuck ((eval_dom_of_reaches hreach).1 hends)
  exact ⟨hreach, hasked, hspins, fun h => hspins h.ends⟩

end Redis

end SocketAcl
