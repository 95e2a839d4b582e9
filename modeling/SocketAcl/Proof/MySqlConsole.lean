import SocketAcl.Lib.Loop
import SocketAcl.Proof.Tokens
import SocketAcl.Spec.MySqlConsole

/-!
# When the MySQL menu obeys

Once an extraction has failed, the menu repeats its last action for ever (`stuck_step`): the stream
is never looked at, and the action cannot be `q`. Until then each statement has the values read right
behind its action (`menu_asked`).

* `obedient_iff`: the menu ends, and issues only what was asked for, exactly if the standard input
  spells whole actions up to a `q`. If it is blank, what `action` happens to hold decides.
-/

namespace SocketAcl

open StateTransition

namespace MySql

/-- What an action reads. -/
def args (action : UInt8) : List Token :=
  if action = 0x69 then [.word, .int]
  else if action = 0x75 then [.int, .word, .int]
  else if action = 0x64 then [.int]
  else []

/-- The first character that is no space, and what is behind it. -/
def firstChar (t : Bytes) : Option (UInt8 × Bytes) := IStream.field? isSpace scanChar t

/-- **Whole actions** up to a `q`: each is followed by its fields, and the numbers among them are `int`s. -/
inductive Actions : Bytes → Prop
  | quit {t t' : Bytes} : firstChar t = some (0x71, t') → Actions t
  | action {t t' t'' : Bytes} {c : UInt8} :
      firstChar t = some (c, t') → c ≠ 0x71 → tokens (args c) t' = some t'' → Actions t'' → Actions t

example : Actions (ascii "i bob 30\nq\n") :=
  have hquit : firstChar (ascii "\nq\n") = some (0x71, ascii "\n") := rfl
  have hinsert : firstChar (ascii "i bob 30\nq\n") = some (0x69, ascii " bob 30\nq\n") := rfl
  .action hinsert (by decide) rfl (.quit hquit)

/-- Statements that change the table. -/
def Statement.modifies : Statement → Bool
  | .select => false
  | .insert _ _ | .update _ _ _ | .delete _ => true

def modifies : Console.Entry Statement → Bool
  | .sent statement => statement.modifies
  | _ => false

/-- The actions `i`, `u` and `d`. -/
def asks : Console.Entry Statement → Bool
  | .char c => c = 0x69 || c = 0x75 || c = 0x64
  | _ => false

/-- **Every statement was asked for**: in front of it stand its action and its values, as they were read. -/
inductive Asked : List (Console.Entry Statement) → Prop
  | nil : Asked []
  | char {c : UInt8} {log : List (Console.Entry Statement)} : Asked log → Asked (.char c :: log)
  | select {log : List (Console.Entry Statement)} : Asked log → Asked (.sent .select :: log)
  | insert {name : Bytes} {age : Int32} {log : List (Console.Entry Statement)} :
      Asked log → Asked (.sent (.insert (cstr name) age) :: .int age :: .word name :: .char 0x69 :: log)
  | update {id : Int32} {name : Bytes} {age : Int32} {log : List (Console.Entry Statement)} :
      Asked log →
        Asked (.sent (.update id (cstr name) age) :: .int age :: .word name :: .int id :: .char 0x75 :: log)
  | delete {id : Int32} {log : List (Console.Entry Statement)} :
      Asked log → Asked (.sent (.delete id) :: .int id :: .char 0x64 :: log)

variable {s s' : State} {t : Bytes} {log : List (Console.Entry Statement)}

/-- Statements are not more than actions. -/
theorem Asked.counted (h : Asked log) : log.countP modifies ≤ log.countP asks := by
  induction h with
  | nil => exact Nat.le_refl _
  | @char c log _ ih =>
    rw [List.countP_cons_of_neg (by simp [modifies])]
    exact ih.trans (List.countP_cons ▸ Nat.le_add_right _ _)
  | select _ ih => simpa [modifies, asks, Statement.modifies] using ih
  | insert _ ih | update _ ih | delete _ ih =>
    simpa [List.countP_cons, modifies, asks, Statement.modifies] using ih

/-! ## An iteration -/

theorem menu_quit (h : s.readAction.action = 0x71) : menu s = none := by
  simp [menu, h]

theorem readName_cin : s.readName.console.cin = Token.word.after s.console.cin := Console.getString_cin _

theorem readId_cin : s.readId.console.cin = Token.int.after s.console.cin := Console.getInt_cin _

theorem readAge_cin : s.readAge.console.cin = Token.int.after s.console.cin := Console.getInt_cin _

/-- Every other action goes on to the next iteration, behind what it reads. -/
theorem menu_some (h : s.readAction.action ≠ 0x71) :
    ∃ s', menu s = some s' ∧ s'.action = s.readAction.action ∧
      s'.console.cin = after (args s.readAction.action) s.readAction.console.cin := by
  unfold menu
  by_cases hi : s.readAction.action = 0x69
  · refine ⟨_, if_pos hi, rfl, ?_⟩
    rw [hi]
    exact readAge_cin.trans (congrArg _ readName_cin)
  by_cases hs : s.readAction.action = 0x73
  · refine ⟨_, (if_neg hi).trans (if_pos hs), rfl, ?_⟩
    rw [hs]
    rfl
  by_cases hu : s.readAction.action = 0x75
  · refine ⟨_, (if_neg hi).trans ((if_neg hs).trans (if_pos hu)), rfl, ?_⟩
    rw [hu]
    exact readAge_cin.trans (congrArg _ (readName_cin.trans (congrArg _ readId_cin)))
  by_cases hd : s.readAction.action = 0x64
  · refine ⟨_, (if_neg hi).trans ((if_neg hs).trans ((if_neg hu).trans (if_pos hd))), rfl, ?_⟩
    rw [hd]
    exact readId_cin
  · refine ⟨s.readAction, by simp [hi, hs, hu, hd, h], rfl, ?_⟩
    simp [args, hi, hu, hd, after]

theorem readAction_log (h : s.readAction.console.cin.failed = false) :
    s.readAction.console.log = .char s.readAction.action :: s.console.log := Console.extract_log h

theorem readName_log (h : s.readName.console.cin.failed = false) :
    s.readName.console.log = .word s.readName.name :: s.console.log := Console.extract_log h

theorem readId_log (h : s.readId.console.cin.failed = false) :
    s.readId.console.log = .int s.readId.id :: s.console.log := Console.extract_log h

theorem readAge_log (h : s.readAge.console.cin.failed = false) :
    s.readAge.console.log = .int s.readAge.age :: s.console.log := Console.extract_log h

/-- What was extracted before did not fail either. -/
theorem readName_ok (h : s.readName.console.cin.failed = false) : s.console.cin.failed = false :=
  Console.extract_ok h

theorem readId_ok (h : s.readId.console.cin.failed = false) : s.console.cin.failed = false :=
  Console.extract_ok h

theorem readAge_ok (h : s.readAge.console.cin.failed = false) : s.console.cin.failed = false :=
  Console.extract_ok h

/-- **One iteration**: if nothing failed, the statement issued was asked for. -/
theorem menu_asked (hA : Asked s.console.log) (h : menu s = some s') (hok : s'.console.cin.failed = false) :
    Asked s'.console.log := by
  unfold menu at h
  simp only at h
  split_ifs at h with hi hs hu hd hq
  · obtain rfl := Option.some.inj h
    have hage : s.readAction.readName.readAge.console.cin.failed = false := hok
    have hname := readAge_ok hage
    have haction := readName_ok hname
    have hlog : s.readAction.readName.readAge.console.log =
        .int s.readAction.readName.readAge.age :: .word s.readAction.readName.name :: .char 0x69 :: s.console.log := by
      rw [readAge_log hage, readName_log hname, readAction_log haction, hi]
    change Asked (_ :: s.readAction.readName.readAge.console.log)
    rw [hlog]
    exact .insert hA
  · obtain rfl := Option.some.inj h
    have haction : s.readAction.console.cin.failed = false := hok
    change Asked (_ :: s.readAction.console.log)
    rw [readAction_log haction]
    exact .select (.char hA)
  · obtain rfl := Option.some.inj h
    have hage : s.readAction.readId.readName.readAge.console.cin.failed = false := hok
    have hname := readAge_ok hage
    have hid := readName_ok hname
    have haction := readId_ok hid
    have hlog : s.readAction.readId.readName.readAge.console.log =
        .int s.readAction.readId.readName.readAge.age :: .word s.readAction.readId.readName.name ::
          .int s.readAction.readId.id :: .char 0x75 :: s.console.log := by
      rw [readAge_log hage, readName_log hname, readId_log hid, readAction_log haction, hu]
    change Asked (_ :: s.readAction.readId.readName.readAge.console.log)
    rw [hlog]
    exact .update hA
  · obtain rfl := Option.some.inj h
    have hid : s.readAction.readId.console.cin.failed = false := hok
    have haction := readId_ok hid
    have hlog : s.readAction.readId.console.log =
        .int s.readAction.readId.id :: .char 0x64 :: s.console.log := by
      rw [readId_log hid, readAction_log haction, hd]
    change Asked (_ :: s.readAction.readId.console.log)
    rw [hlog]
    exact .delete hA
  · obtain rfl := Option.some.inj h
    have haction : s.readAction.console.cin.failed = false := hok
    rw [readAction_log haction]
    exact .char hA

/-! ## Stuck -/

/-- **Stuck**: an extraction failed, and the last action is not `q`. -/
structure Stuck (s : State) : Prop where
  failed : s.console.cin.failed = true
  action : s.action ≠ 0x71

/-- While the flag is set, the last action is repeated. -/
theorem readAction_failed (h : s.console.cin.failed = true) : s.readAction = s := by
  simp only [State.readAction, Console.getChar, Console.extract_failed h]

/-- A menu that is stuck stays so. -/
theorem stuck_step (h : Stuck s) : ∃ s', menu s = some s' ∧ Stuck s' := by
  have hread := readAction_failed h.failed
  obtain ⟨s', hs', haction, hcin⟩ := menu_some (by rw [hread]; exact h.action)
  rw [hread] at haction hcin
  rw [after_failed h.failed] at hcin
  exact ⟨s', hs', by rw [hcin]; exact h.failed, by rw [haction]; exact h.action⟩

/-- An iteration whose statement was not asked for gets stuck. -/
theorem menu_asked_or_stuck (hA : Asked s.console.log) (h : menu s = some s') : Asked s'.console.log ∨ Stuck s' := by
  cases hok : s'.console.cin.failed with
  | false => exact .inl (menu_asked hA h hok)
  | true =>
    have hne : s.readAction.action ≠ 0x71 := by
      intro hq
      rw [menu_quit hq] at h
      cases h
    obtain ⟨t, ht, haction, -⟩ := menu_some hne
    obtain rfl := Option.some.inj (h.symm.trans ht)
    exact .inr ⟨hok, haction.trans_ne hne⟩

/-! ## Which inputs end -/

/-- A text has no first character exactly if it is blank. -/
theorem firstChar_eq_none : firstChar t = none ↔ t.all isSpace = true := by
  have hscan : ∀ t, (scanChar t).ok = true := fun t => by cases t <;> rfl
  rw [List.all_eq_true, ← List.dropWhile_eq_nil_iff, firstChar, IStream.field?]
  cases t.dropWhile isSpace with
  | nil => simp
  | cons c rest => simp [hscan]

/-- The action of an iteration, and what is behind it. -/
theorem readAction_some {c : UInt8} {t' : Bytes} (hcin : s.console.cin = ⟨t, false⟩) (h : firstChar t = some (c, t')) :
    s.readAction.action = c ∧ s.readAction.console.cin = ⟨t', false⟩ := by
  have hext := IStream.extract_some (x := s.action) h
  rw [← hcin] at hext
  exact ⟨congrArg Prod.fst hext, congrArg Prod.snd hext⟩

/-- At a blank text the last action is repeated. -/
theorem readAction_none (hcin : s.console.cin = ⟨t, false⟩) (h : firstChar t = none) :
    s.readAction.action = s.action ∧ s.readAction.console.cin.failed = true := by
  have hext := IStream.extract_end (x := s.action) (fun t => by cases t <;> rfl) h
  rw [← hcin] at hext
  exact ⟨congrArg Prod.fst hext, congrArg (fun r => r.2.failed) hext⟩

/-- **Whole actions end.** -/
theorem ends_of_actions (h : Actions t) (hcin : s.console.cin = ⟨t, false⟩) : (eval menu s).Dom := by
  induction h generalizing s with
  | quit hfirst => exact eval_dom_of_none (menu_quit (readAction_some hcin hfirst).1)
  | action hfirst hne htokens _ ih =>
    obtain ⟨haction, hread⟩ := readAction_some hcin hfirst
    obtain ⟨s', hs', -, hcin'⟩ := menu_some (haction.trans_ne hne)
    rw [haction, hread, after_some htokens] at hcin'
    exact (eval_dom_of_reaches (Relation.ReflTransGen.single hs')).2 (ih hcin')

/-- **Lost**: the menu is stuck, or what it has still to read are no whole actions, and a blank text would not
end it. -/
def Lost (s : State) : Prop :=
  Stuck s ∨ ∃ t, s.console.cin = ⟨t, false⟩ ∧ ¬ Actions t ∧ (firstChar t = none → s.action ≠ 0x71)

theorem lost_step (h : Lost s) : ∃ s', menu s = some s' ∧ Lost s' := by
  rcases h with hstuck | ⟨t, hcin, hnot, hblank⟩
  · obtain ⟨s', hs', hstuck'⟩ := stuck_step hstuck
    exact ⟨s', hs', .inl hstuck'⟩
  cases hfirst : firstChar t with
  | none =>
    obtain ⟨haction, hfailed⟩ := readAction_none hcin hfirst
    have hne : s.readAction.action ≠ 0x71 := haction.trans_ne (hblank hfirst)
    obtain ⟨s', hs', haction', hcin'⟩ := menu_some hne
    refine ⟨s', hs', .inl ⟨?_, haction'.trans_ne hne⟩⟩
    rw [hcin', after_failed hfailed]
    exact hfailed
  | some r =>
    obtain ⟨c, t'⟩ := r
    obtain ⟨haction, hread⟩ := readAction_some hcin hfirst
    have hne : c ≠ 0x71 := by
      rintro rfl
      exact hnot (.quit hfirst)
    obtain ⟨s', hs', haction', hcin'⟩ := menu_some (haction.trans_ne hne)
    have hne' : s'.action ≠ 0x71 := haction'.trans_ne (haction.trans_ne hne)
    rw [haction, hread] at hcin'
    cases htokens : tokens (args c) t' with
    | none =>
      -- a field is missing
      refine ⟨s', hs', .inl ⟨?_, hne'⟩⟩
      rw [hcin']
      exact after_none htokens
    | some t'' =>
      rw [after_some htokens] at hcin'
      exact ⟨s', hs', .inr ⟨t'', hcin', fun hrest => hnot (.action hfirst hne htokens hrest), fun _ => hne'⟩⟩

/-- **The menu obeys**: it ends, and whatever it issued, it was asked for. -/
structure Obedient (s : State) : Prop where
  ends : (eval menu s).Dom
  /-- `INSERT`, `UPDATE` and `DELETE` are not more than the actions read -/
  counted : ∀ t, Reaches menu s t → t.console.log.countP modifies ≤ t.console.log.countP asks
  /-- each has the values read behind its action -/
  asked : ∀ t, Reaches menu s t → Asked t.console.log

/-- **The menu obeys** exactly if the standard input spells whole actions up to a `q`; or is blank, and `action`
happens to hold a `q`. -/
theorem obedient_iff (text : Bytes) (action : UInt8) (id age : Int32) :
    Obedient (.init text action id age) ↔ Actions text ∨ text.all isSpace = true ∧ action = 0x71 := by
  constructor
  · intro h
    by_contra hnot
    rw [not_or, not_and] at hnot
    exact not_eval_dom (fun _ => lost_step)
      (.inr ⟨text, rfl, hnot.1, fun hnone => hnot.2 (firstChar_eq_none.1 hnone)⟩) h.ends
  · intro h
    have hends : (eval menu (.init text action id age)).Dom := by
      rcases h with hactions | ⟨hblank, hq⟩
      · exact ends_of_actions hactions rfl
      · refine eval_dom_of_none (menu_quit ?_)
        exact (readAction_none rfl (firstChar_eq_none.2 hblank)).1.trans hq
    have hasked : ∀ t, Reaches menu (.init text action id age) t → Asked t.console.log := fun t ht =>
      reaches_inv_of_dom (I := fun s => Asked s.console.log) (fun _ _ => menu_asked_or_stuck) (fun _ => stuck_step) .nil
        hends ht
    exact ⟨hends, fun t ht => (hasked t ht).counted, hasked⟩

/-- Behind an age that is no number: `bob` was inserted, with a 0 that was not read. -/
def insertedOnce : State :=
  ⟨0x69, ascii "bob", 0, 0,
    ⟨⟨ascii "x q", true⟩, [.sent (.insert (ascii "bob") 0), .word (ascii "bob"), .char 0x69]⟩⟩

/-- One iteration later. -/
def insertedTwice : State := { insertedOnce with console := insertedOnce.console.send (.insert (ascii "bob") 0) }

/-- **An age that is no number**: behind `i bob x` the menu inserts `bob` again and again. -/
theorem bob_again : Reaches menu (.init (ascii "i bob x q") 0 0 0) insertedTwice ∧
    insertedTwice.console.log.countP modifies = 2 ∧ insertedTwice.console.log.countP asks = 1 ∧
    ¬ (eval menu (.init (ascii "i bob x q") 0 0 0)).Dom ∧ ¬ Obedient (.init (ascii "i bob x q") 0 0 0) := by
  have hfirst : menu (.init (ascii "i bob x q") 0 0 0) = some insertedOnce := rfl
  have hsecond : menu insertedOnce = some insertedTwice := rfl
  have hreach : Reaches menu (.init (ascii "i bob x q") 0 0 0) insertedTwice :=
    .trans (.single hfirst) (.single hsecond)
  have hstuck : Stuck insertedTwice := ⟨rfl, by decide⟩
  have hspins : ¬ (eval menu (.init (ascii "i bob x q") 0 0 0)).Dom := fun hends =>
    not_eval_dom (fun _ => stuck_step) hstuck ((eval_dom_of_reaches hreach).1 hends)
  exact ⟨hreach, by decide +kernel, by decide +kernel, hspins, fun h => hspins h.ends⟩

end MySql

end SocketAcl
