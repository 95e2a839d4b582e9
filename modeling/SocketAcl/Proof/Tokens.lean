import SocketAcl.Spec.Console

/-!
# Tokens of the standard input

What extractions leave of the stream depends on their types alone. `tokens` is the text behind some
tokens at the front of a text, if it begins with them; extractions of these types succeed exactly
then (`after_some`, `after_none`), and an extraction is logged exactly if it succeeds.
-/

namespace SocketAcl

open IStream (Scanned)

/-- The types of what is extracted. -/
inductive Token
  | char
  | word
  | int
  | double

/-- The text behind a token of this type, if the text begins with one. -/
def Token.behind : Token → Bytes → Option Bytes
  | .char, t => (IStream.field? isSpace scanChar t).map Prod.snd
  | .word, t => (IStream.field? isSpace scanWord t).map Prod.snd
  | .int, t => (IStream.field? isSpace scanInt t).map Prod.snd
  | .double, t => (IStream.field? isSpace scanDouble t).map Prod.snd

/-- The text behind some tokens, one after the other. -/
def tokens : List Token → Bytes → Option Bytes
  | [], t => some t
  | k :: ks, t => (k.behind t).bind (tokens ks)

/-- What an extraction of this type leaves of the stream. -/
def Token.after : Token → IStream UInt8 → IStream UInt8
  | .char, s => (s.extract isSpace scanChar 0).2
  | .word, s => (s.extract isSpace scanWord []).2
  | .int, s => (s.extract isSpace scanInt 0).2
  | .double, s => (s.extract isSpace scanDouble []).2

/-- What extractions of these types leave, one after the other. -/
def after (ks : List Token) (s : IStream UInt8) : IStream UInt8 := ks.foldl (fun s k => k.after s) s

variable {ks : List Token} {k : Token} {s : IStream UInt8} {t t' : Bytes}

theorem Token.after_failed (h : s.failed = true) : k.after s = s := by
  cases k with
  | _ => simp only [Token.after, IStream.extract_failed h]

theorem Token.after_some (h : k.behind t = some t') : k.after ⟨t, false⟩ = ⟨t', false⟩ := by
  cases k with
  | _ =>
    obtain ⟨⟨v, t''⟩, hfield, rfl⟩ := Option.map_eq_some_iff.1 h
    simp only [Token.after, IStream.extract_some hfield]

theorem Token.after_none (h : k.behind t = none) : (k.after ⟨t, false⟩).failed = true := by
  cases k with
  | _ => exact IStream.extract_none (Option.map_eq_none_iff.1 h)

/-- A stream that failed stays so. -/
theorem after_failed (h : s.failed = true) : after ks s = s := by
  induction ks with
  | nil => rfl
  | cons k ks ih =>
    rw [after, List.foldl_cons, Token.after_failed h]
    exact ih

/-- Tokens that are there are extracted. -/
theorem after_some (h : tokens ks t = some t') : after ks ⟨t, false⟩ = ⟨t', false⟩ := by
  induction ks generalizing t with
  | nil =>
    obtain rfl := Option.some.inj h
    rfl
  | cons k ks ih =>
    obtain ⟨u, hu, hrest⟩ := Option.bind_eq_some_iff.1 h
    rw [after, List.foldl_cons, Token.after_some hu]
    exact ih hrest

/-- Where one is missing, the stream fails. -/
theorem after_none (h : tokens ks t = none) : (after ks ⟨t, false⟩).failed = true := by
  induction ks generalizing t with
  | nil => cases h
  | cons k ks ih =>
    rw [after, List.foldl_cons]
    cases hk : k.behind t with
    | none =>
      have hfailed := Token.after_none hk
      have hrest : after ks _ = _ := after_failed hfailed
      rw [after] at hrest
      rw [hrest]
      exact hfailed
    | some u =>
      rw [tokens, hk, Option.bind_some] at h
      rw [Token.after_some hk]
      exact ih h

namespace Console

variable {κ β : Type} {scan : Bytes → Scanned UInt8 β} {entry : β → Entry κ} {x y : β} {c : Console κ}

/-- Extractions of one type leave the same stream. -/
theorem extract_cin : (c.extract scan entry x).2.cin = (c.cin.extract isSpace scan y).2 := by
  obtain ⟨⟨rest, failed⟩, log⟩ := c
  cases failed with
  | true => rfl
  | false =>
    simp only [extract, IStream.extract, Bool.false_eq_true, if_false]
    split <;> rfl

@[simp] theorem getChar_cin (x : UInt8) : (c.getChar x).2.cin = Token.char.after c.cin := extract_cin

@[simp] theorem getString_cin (x : Bytes) : (c.getString x).2.cin = Token.word.after c.cin := extract_cin

@[simp] theorem getInt_cin (x : Int32) : (c.getInt x).2.cin = Token.int.after c.cin := extract_cin

@[simp] theorem getDouble_cin (x : Bytes) : (c.getDouble x).2.cin = Token.double.after c.cin := extract_cin

/-- A field that is there is extracted and logged. -/
theorem extract_some {t t' : Bytes} {v : β} (hcin : c.cin = ⟨t, false⟩)
    (h : IStream.field? isSpace scan t = some (v, t')) :
    c.extract scan entry x = (v, ⟨⟨t', false⟩, entry v :: c.log⟩) := by
  simp only [extract, hcin, IStream.extract_some h, Bool.false_eq_true, if_false]

/-- At the end of the text the variable keeps its value. -/
theorem extract_end {t : Bytes} (hscan : ∀ t, (scan t).ok = true) (hcin : c.cin = ⟨t, false⟩)
    (h : IStream.field? isSpace scan t = none) : c.extract scan entry x = (x, ⟨⟨[], true⟩, c.log⟩) := by
  simp only [extract, hcin, IStream.extract_end hscan h, if_true]

theorem extract_nil (h : c.cin.rest = []) : c.extract scan entry x = (x, ⟨⟨[], true⟩, c.log⟩) := by
  simp only [extract, IStream.extract_nil h, if_true]

/-- Nothing is extracted behind a failure. -/
theorem extract_ok (h : (c.extract scan entry x).2.cin.failed = false) : c.cin.failed = false := by
  cases hc : c.cin.failed with
  | false => rfl
  | true =>
    change (c.cin.extract isSpace scan x).2.failed = false at h
    rw [IStream.extract_failed hc, hc] at h
    cases h

/-- An extraction that succeeds is logged. -/
theorem extract_log (h : (c.extract scan entry x).2.cin.failed = false) :
    (c.extract scan entry x).2.log = entry (c.extract scan entry x).1 :: c.log := by
  change (if (c.cin.extract isSpace scan x).2.failed then _ else _) = _
  exact if_neg (Bool.eq_false_iff.1 h)

/-- One that fails is not. -/
theorem extract_log_failed (h : (c.extract scan entry x).2.cin.failed = true) :
    (c.extract scan entry x).2.log = c.log := if_pos h

/-- While the flag is set, the variable keeps its value and nothing is logged. -/
theorem extract_failed (h : c.cin.failed = true) : c.extract scan entry x = (x, c) := by
  simp only [extract, IStream.extract_failed h, h, if_true]

end Console

end SocketAcl
