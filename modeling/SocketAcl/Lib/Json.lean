import SocketAcl.Lib.Utf8

/-!
# JSON texts and the values they denote

A value's strings are the UTF-8 bytes they denote, its numbers are literals. `parse` reads a
text: `none` where the text is not valid.

* `chars`: the inside of a string, with its escapes, up to the closing quote.
* `str_shorter`: a string is shorter than each of its texts, by the two quotes at least.
-/

namespace SocketAcl

inductive Json
  | null
  | bool (b : Bool)
  | num (literal : List UInt8)
  | str (s : List UInt8)
  | arr (values : List Json)
  | obj (members : List (List UInt8 × Json))

namespace Json

/-- The value of a member: the last one of its name. -/
def field (name : List UInt8) : Json → Option Json
  | obj members => (members.reverse.find? fun m => m.1 = name).map Prod.snd
  | _ => none

/-! ## Strings -/

/-- The value of a hexadecimal digit. -/
def hex (b : UInt8) : Option ℕ :=
  if 0x30 ≤ b ∧ b ≤ 0x39 then some (b.toNat - 0x30)
  else if 0x41 ≤ b ∧ b ≤ 0x46 then some (b.toNat - 0x37)
  else if 0x61 ≤ b ∧ b ≤ 0x66 then some (b.toNat - 0x57)
  else none

/-- The four digits of a `\u`. -/
def hex4 : List UInt8 → Option (ℕ × List UInt8)
  | a :: b :: c :: d :: t => do
    let n := 16 * (16 * (16 * (← hex a) + (← hex b)) + (← hex c)) + (← hex d)
    return (n, t)
  | _ => none

/-- What a `\u` denotes, alone or with the `\u` of a low surrogate behind it. -/
def unicode (t : List UInt8) : Option (List UInt8 × List UInt8) := do
  let (n, t) ← hex4 t
  if 0xD800 ≤ n ∧ n < 0xDC00 then
    match t with
    | 0x5C :: 0x75 :: t => do
      let (m, t) ← hex4 t
      if 0xDC00 ≤ m ∧ m < 0xE000 then
        return (UTF8.encode (0x10000 + (n - 0xD800) * 0x400 + (m - 0xDC00)), t)
      else none
    | _ => none
  else if 0xDC00 ≤ n ∧ n < 0xE000 then none
  else return (UTF8.encode n, t)

/-- The escapes of one letter, and the byte each denotes. -/
def escapes : List (UInt8 × UInt8) :=
  [(0x22, 0x22), (0x5C, 0x5C), (0x2F, 0x2F), (0x62, 8), (0x66, 12), (0x6E, 10), (0x72, 13), (0x74, 9)]

/-- What the next character of a string denotes, and the text behind it. -/
def char : List UInt8 → Option (List UInt8 × List UInt8)
  | 0x5C :: 0x75 :: t => unicode t
  | 0x5C :: e :: t => (escapes.lookup e).map fun b => ([b], t)
  | b :: t => if b < 0x20 ∨ b = 0x5C then none else some ([b], t)
  | [] => none

/-- The inside of a string and the text behind its closing quote. -/
def chars : ℕ → List UInt8 → Option (List UInt8 × List UInt8)
  | 0, _ => none
  | fuel + 1, t =>
    match t with
    | 0x22 :: t => some ([], t)
    | t => do
      let (c, t) ← char t
      let (s, t) ← chars fuel t
      return (c ++ s, t)

/-! ## Values -/

def skip (t : List UInt8) : List UInt8 := t.dropWhile fun b => b = 32 || b = 9 || b = 10 || b = 13

/-- The text behind a given one. -/
def expect (word t : List UInt8) : Option (List UInt8) :=
  if word <+: t then some (t.drop word.length) else none

def isDigit (b : UInt8) : Bool := 0x30 ≤ b && b ≤ 0x39

/-- Digits, one at least. -/
def digits (t : List UInt8) : Option (List UInt8 × List UInt8) :=
  match t.span isDigit with
  | ([], _) => none
  | r => some r

/-- The part of a number behind its point, where there is one. -/
def fraction : List UInt8 → Option (List UInt8 × List UInt8)
  | 0x2E :: t => (digits t).map fun r => (0x2E :: r.1, r.2)
  | t => some ([], t)

/-- The exponent of a number, where there is one. -/
def exponent : List UInt8 → Option (List UInt8 × List UInt8)
  | e :: s :: t =>
    if e = 0x65 ∨ e = 0x45 then
      if s = 0x2B ∨ s = 0x2D then (digits t).map fun r => (e :: s :: r.1, r.2)
      else (digits (s :: t)).map fun r => (e :: r.1, r.2)
    else some ([], e :: s :: t)
  | [e] => if e = 0x65 ∨ e = 0x45 then none else some ([], [e])
  | [] => some ([], [])

/-- The part of a number in front of its point, without the sign. -/
def whole : List UInt8 → Option (List UInt8 × List UInt8)
  | 0x30 :: t => some ([0x30], t)
  | t => digits t

/-- A number, as it is written. -/
def number (t : List UInt8) : Option (List UInt8 × List UInt8) :=
  let sign := t.takeWhile fun b => b = 0x2D
  if 1 < sign.length then none
  else do
    let (n, t) ← whole (t.drop sign.length)
    let (f, t) ← fraction t
    let (e, t) ← exponent t
    return (sign ++ n ++ f ++ e, t)

mutual

/-- A value and the text behind it. -/
def value : ℕ → List UInt8 → Option (Json × List UInt8)
  | 0, _ => none
  | fuel + 1, t =>
    match skip t with
    | 0x22 :: t => (chars t.length t).map fun r => (str r.1, r.2)
    | 0x5B :: t =>
      match skip t with
      | 0x5D :: t => some (arr [], t)
      | t => (elements fuel t).map fun r => (arr r.1, r.2)
    | 0x7B :: t =>
      match skip t with
      | 0x7D :: t => some (obj [], t)
      | t => (members fuel t).map fun r => (obj r.1, r.2)
    | 0x6E :: t => (expect [0x75, 0x6C, 0x6C] t).map fun t => (null, t)
    | 0x74 :: t => (expect [0x72, 0x75, 0x65] t).map fun t => (bool true, t)
    | 0x66 :: t => (expect [0x61, 0x6C, 0x73, 0x65] t).map fun t => (bool false, t)
    | t => (number t).map fun r => (num r.1, r.2)

/-- The values of an array and the text behind its bracket. -/
def elements : ℕ → List UInt8 → Option (List Json × List UInt8)
  | 0, _ => none
  | fuel + 1, t => do
    let (v, t) ← value fuel t
    match skip t with
    | 0x2C :: t => (elements fuel t).map fun r => (v :: r.1, r.2)
    | 0x5D :: t => some ([v], t)
    | _ => none

/-- The members of an object and the text behind its brace. -/
def members : ℕ → List UInt8 → Option (List (List UInt8 × Json) × List UInt8)
  | 0, _ => none
  | fuel + 1, t =>
    match skip t with
    | 0x22 :: t => do
      let (name, t) ← chars t.length t
      match skip t with
      | 0x3A :: t => do
        let (v, t) ← value fuel t
        match skip t with
        | 0x2C :: t => (members fuel t).map fun r => ((name, v) :: r.1, r.2)
        | 0x7D :: t => some ([(name, v)], t)
        | _ => none
      | _ => none
    | _ => none

end

/-- The value a text denotes. -/
def parse (t : List UInt8) : Option Json := do
  let (v, t) ← value (t.length + 1) t
  match skip t with
  | [] => return v
  | _ => none

/-! ## Strings are shorter than their texts -/

/-- `rest` is left of `t` behind `n` bytes at least, none of them NUL. -/
def Reads (t : List UInt8) (n : ℕ) (rest : List UInt8) : Prop :=
  ∃ used, t = used ++ rest ∧ 0 ∉ used ∧ n ≤ used.length

variable {t rest rest' s : List UInt8} {fuel m n : ℕ}

theorem Reads.byte {b : UInt8} (hb : b ≠ 0) (t : List UInt8) : Reads (b :: t) 1 t :=
  ⟨[b], rfl, fun h => hb (List.mem_singleton.1 h).symm, le_rfl⟩

theorem Reads.trans (h : Reads t n rest) (h' : Reads rest m rest') : Reads t (n + m) rest' := by
  obtain ⟨used, rfl, h0, hn⟩ := h
  obtain ⟨used', rfl, h0', hm⟩ := h'
  refine ⟨used ++ used', (List.append_assoc ..).symm, ?_, ?_⟩
  · rw [List.mem_append, not_or]
    exact ⟨h0, h0'⟩
  · rw [List.length_append]
    omega

theorem Reads.mono (h : Reads t n rest) (hm : m ≤ n) : Reads t m rest := by
  obtain ⟨used, ht, h0, hn⟩ := h
  exact ⟨used, ht, h0, hm.trans hn⟩

theorem length_encode_le (n : ℕ) : (UTF8.encode n).length ≤ 4 := by
  unfold UTF8.encode
  split
  · exact Nat.le_of_ble_eq_true rfl
  · split
    · exact Nat.le_of_ble_eq_true rfl
    · split <;> exact Nat.le_of_ble_eq_true rfl

/-- NUL is no digit. -/
theorem ne_zero_of_hex {b : UInt8} (h : hex b = some n) : b ≠ 0 := by
  rintro rfl
  cases h

theorem reads_hex4 (h : hex4 t = some (n, rest)) : Reads t 4 rest := by
  unfold hex4 at h
  split at h
  · simp only [Option.bind_eq_bind, Option.bind_eq_some_iff, pure, Option.some.injEq, Prod.mk.injEq] at h
    obtain ⟨_, ha, _, hb, _, hc, _, hd, _, ht⟩ := h
    rw [ht]
    have hcd := (Reads.byte (ne_zero_of_hex hc) _).trans (.byte (ne_zero_of_hex hd) rest)
    exact (Reads.byte (ne_zero_of_hex ha) _).trans ((Reads.byte (ne_zero_of_hex hb) _).trans hcd)
  · cases h

/-- The `\u` of an escape. -/
theorem reads_mark (t : List UInt8) : Reads (0x5C :: 0x75 :: t) 2 t :=
  (Reads.byte (by decide) _).trans (.byte (by decide) t)

theorem reads_unicode (h : unicode t = some (s, rest)) : Reads t s.length rest := by
  unfold unicode at h
  obtain ⟨⟨n, t'⟩, hn, h⟩ := Option.bind_eq_some_iff.1 h
  have hhigh := reads_hex4 hn
  simp only at h
  split at h
  · split at h
    · obtain ⟨⟨m, t''⟩, hm, h⟩ := Option.bind_eq_some_iff.1 h
      have hlow := reads_hex4 hm
      simp only at h
      split at h
      · obtain ⟨rfl, rfl⟩ := Prod.mk.inj (Option.some.inj h)
        have hlen := length_encode_le (0x10000 + (n - 0xD800) * 0x400 + (m - 0xDC00))
        exact (hhigh.trans ((reads_mark _).trans hlow)).mono (by omega)
      · cases h
    · cases h
  · split at h
    · cases h
    · obtain ⟨rfl, rfl⟩ := Prod.mk.inj (Option.some.inj h)
      exact hhigh.mono (length_encode_le n)

theorem reads_char (h : char t = some (s, rest)) : Reads t s.length rest := by
  unfold char at h
  split at h
  · exact ((reads_mark _).trans (reads_unicode h)).mono (by omega)
  · obtain ⟨b, he, hb⟩ := Option.map_eq_some_iff.1 h
    obtain ⟨rfl, ht⟩ := Prod.mk.inj hb
    rw [ht]
    refine ((Reads.byte (by decide) _).trans (.byte (fun he0 => ?_) rest)).mono (Nat.le_succ 1)
    rw [he0] at he
    cases he
  · split at h
    · cases h
    · rename_i hb
      obtain ⟨rfl, rfl⟩ := Prod.mk.inj (Option.some.inj h)
      refine .byte ?_ _
      rintro rfl
      exact hb (.inl (by decide))
  · cases h

/-- The inside of a string has no more bytes than its text, which ends in a quote. -/
theorem reads_chars (h : chars fuel t = some (s, rest)) : Reads t (s.length + 1) rest := by
  induction fuel generalizing t s with
  | zero => cases h
  | succ fuel ih =>
    unfold chars at h
    split at h
    · obtain ⟨rfl, rfl⟩ := Prod.mk.inj (Option.some.inj h)
      exact .byte (by decide) _
    · obtain ⟨⟨c, t'⟩, hc, h⟩ := Option.bind_eq_some_iff.1 h
      obtain ⟨⟨s', t''⟩, hs, h⟩ := Option.bind_eq_some_iff.1 h
      obtain ⟨rfl, rfl⟩ := Prod.mk.inj (Option.some.inj h)
      rw [List.length_append, Nat.add_assoc]
      exact (reads_char hc).trans (ih hs)

theorem reads_skip (t : List UInt8) : Reads t 0 (skip t) := by
  refine ⟨_, (List.takeWhile_append_dropWhile ..).symm, fun h => ?_, Nat.zero_le _⟩
  have := List.mem_takeWhile_imp h
  exact absurd this (by decide)

theorem reads_value (h : value fuel t = some (str s, rest)) : Reads t (s.length + 2) rest := by
  cases fuel with
  | zero => cases h
  | succ fuel =>
    have hskip := reads_skip t
    unfold value at h
    split at h
    · rename_i t' ht
      obtain ⟨⟨s', t''⟩, hs, h⟩ := Option.map_eq_some_iff.1 h
      obtain ⟨hstr, rfl⟩ := Prod.mk.inj h
      obtain rfl := Json.str.inj hstr
      rw [ht] at hskip
      exact ((hskip.trans (.byte (by decide) _)).trans (reads_chars hs)).mono (by simp only; omega)
    -- no other first byte begins a string
    · split at h
      · cases h
      · obtain ⟨_, -, h⟩ := Option.map_eq_some_iff.1 h
        cases h
    · split at h
      · cases h
      · obtain ⟨_, -, h⟩ := Option.map_eq_some_iff.1 h
        cases h
    all_goals
      obtain ⟨_, -, h⟩ := Option.map_eq_some_iff.1 h
      cases h

/-- **A string is shorter than each of its texts**, by the two quotes at least; no text has a NUL. -/
theorem str_shorter (h : parse t = some (str s)) : s.length + 2 ≤ t.length ∧ 0 ∉ t := by
  unfold parse at h
  obtain ⟨⟨v, rest⟩, hv, h⟩ := Option.bind_eq_some_iff.1 h
  simp only at h
  split at h
  · rename_i hrest
    obtain rfl := Option.some.inj h
    have hspace := reads_skip rest
    rw [hrest] at hspace
    obtain ⟨used, rfl, h0, hlen⟩ := (reads_value hv).trans hspace
    rw [List.append_nil]
    exact ⟨hlen, h0⟩
  · cases h

end Json

end SocketAcl
