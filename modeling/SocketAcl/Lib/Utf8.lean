import Mathlib.Algebra.Ring.Nat
import Mathlib.Data.List.GetD
import Mathlib.Data.List.TakeWhile
import Mathlib.Tactic.Common

/-!
# UTF-8 with replacement

The encoding of UTF-16 text as UTF-8 and back, where U+FFFD takes the place of what cannot be
encoded or decoded: of a lone surrogate, and of each maximal part of an ill-formed sequence.

* `getBytes`, `decode`: the two directions.
* `Chained`: a lead byte is followed by a continuation byte (`chained_getBytes`).
* `decode_ascii`: decoding starts afresh behind an ASCII byte, whatever stands in front.
* `decode_take_le`, `decode_drop_lt`, `decode_drop_ascii_lt`, `decode_take_ascii_lt`: how the length
  of the decoded text depends on what is cut off at either end.
* `decode_nuls`, `takeWhile_decode`: NUL bytes are NULs of the text, and nothing else is.
-/

namespace SocketAcl

namespace UTF8

def isHigh (u : UInt16) : Bool := 0xD800 ≤ u.toNat && u.toNat < 0xDC00
def isLow (u : UInt16) : Bool := 0xDC00 ≤ u.toNat && u.toNat < 0xE000

/-- U+FFFD. -/
def replacement : ℕ := 0xFFFD

/-! ## Encoding -/

/-- The bytes of a Unicode scalar value. -/
def encode (n : ℕ) : List UInt8 :=
  if n < 0x80 then [UInt8.ofNat n]
  else if n < 0x800 then [UInt8.ofNat (0xC0 + n / 0x40), UInt8.ofNat (0x80 + n % 0x40)]
  else if n < 0x10000 then
    [UInt8.ofNat (0xE0 + n / 0x1000), UInt8.ofNat (0x80 + n / 0x40 % 0x40), UInt8.ofNat (0x80 + n % 0x40)]
  else
    [UInt8.ofNat (0xF0 + n / 0x40000), UInt8.ofNat (0x80 + n / 0x1000 % 0x40),
      UInt8.ofNat (0x80 + n / 0x40 % 0x40), UInt8.ofNat (0x80 + n % 0x40)]

/-- The bytes of a code unit that is no part of a surrogate pair. -/
def encodeUnit (u : UInt16) : List UInt8 := encode (if isHigh u || isLow u then replacement else u.toNat)

/-- The bytes of a text. -/
def getBytes : List UInt16 → List UInt8
  | [] => []
  | [u] => encodeUnit u
  | u :: v :: s =>
    if isHigh u && isLow v then
      encode (0x10000 + (u.toNat - 0xD800) * 0x400 + (v.toNat - 0xDC00)) ++ getBytes s
    else encodeUnit u ++ getBytes (v :: s)

theorem encode_pos (n : ℕ) : 0 < (encode n).length := by
  unfold encode
  split
  · exact Nat.one_pos
  · split
    · exact Nat.two_pos
    · split <;> simp

/-- Every code unit takes a byte at least. -/
theorem length_le_getBytes (s : List UInt16) : s.length ≤ (getBytes s).length := by
  fun_induction getBytes s with
  | case1 => exact le_rfl
  | case2 u => exact encode_pos _
  | case3 u v s h ih =>
    -- a surrogate pair takes four bytes
    have hpair : (encode (0x10000 + (u.toNat - 0xD800) * 0x400 + (v.toNat - 0xDC00))).length = 4 := by
      unfold encode
      rw [if_neg (by omega), if_neg (by omega), if_neg (by omega)]
      rfl
    rw [List.length_append, hpair]
    simp only [List.length_cons]
    omega
  | case4 u v s h ih =>
    have := encode_pos (if isHigh u || isLow u then replacement else u.toNat)
    rw [List.length_append, encodeUnit]
    simp only [List.length_cons] at ih ⊢
    omega

/-- Every lead byte is followed by a continuation byte. -/
def Chained (l : List UInt8) : Prop := ∀ i, 0xC0 ≤ (l.getD i 0).toNat → 0x80 ≤ (l.getD (i + 1) 0).toNat

theorem chained_nil : Chained [] := by
  intro i h
  simp at h

theorem Chained.append {l l' : List UInt8} (h : Chained l) (h' : Chained l') : Chained (l ++ l') := by
  intro i hi
  rcases Nat.lt_trichotomy (i + 1) l.length with hlt | heq | hgt
  · rw [List.getD_append _ _ _ _ (by omega)] at hi ⊢
    exact h i hi
  · -- the last byte of the first part is no lead byte
    rw [List.getD_append _ _ _ _ (by omega)] at hi
    have := h i hi
    rw [List.getD_eq_default _ _ (by omega)] at this
    simp at this
  · rw [List.getD_append_right _ _ _ _ (by omega)] at hi ⊢
    rw [show i + 1 - l.length = i - l.length + 1 by omega]
    exact h' _ hi

/-- A lead byte and its continuation bytes. -/
theorem chained_cons {b : UInt8} {l : List UInt8} (hl : ∀ c ∈ l, 0x80 ≤ c.toNat ∧ c.toNat < 0xC0)
    (hb : b.toNat < 0xC0 ∨ l ≠ []) : Chained (b :: l) := by
  have hget : ∀ i, (l.getD i 0).toNat < 0xC0 := by
    intro i
    by_cases hi : i < l.length
    · rw [List.getD_eq_getElem _ _ hi]
      exact (hl _ (List.getElem_mem hi)).2
    · rw [List.getD_eq_default _ _ (by omega)]
      decide
  intro i hi
  cases i with
  | zero =>
    rw [List.getD_cons_zero] at hi
    have hne : l ≠ [] := hb.resolve_left (by omega)
    have hpos : 0 < l.length := List.length_pos_iff.2 hne
    rw [List.getD_cons_succ, List.getD_eq_getElem _ _ hpos]
    exact (hl _ (List.getElem_mem hpos)).1
  | succ i =>
    rw [List.getD_cons_succ] at hi
    have := hget i
    omega

theorem continuation (n : ℕ) :
    0x80 ≤ (UInt8.ofNat (0x80 + n % 0x40)).toNat ∧ (UInt8.ofNat (0x80 + n % 0x40)).toNat < 0xC0 := by
  rw [UInt8.toNat_ofNat']
  omega

theorem chained_encode (n : ℕ) : Chained (encode n) := by
  unfold encode
  split
  · refine chained_cons (by simp) (.inl ?_)
    rw [UInt8.toNat_ofNat']
    omega
  · split
    · exact chained_cons (List.forall_mem_singleton.2 (continuation _)) (.inr (by simp))
    · split
      · refine chained_cons (List.forall_mem_cons.2 ⟨continuation _, ?_⟩) (.inr (by simp))
        exact List.forall_mem_singleton.2 (continuation _)
      · refine chained_cons (List.forall_mem_cons.2 ⟨continuation _, ?_⟩) (.inr (by simp))
        refine List.forall_mem_cons.2 ⟨continuation _, ?_⟩
        exact List.forall_mem_singleton.2 (continuation _)

/-- **Encoded text is chained.** -/
theorem chained_getBytes (s : List UInt16) : Chained (getBytes s) := by
  fun_induction getBytes s with
  | case1 => exact chained_nil
  | case2 u => exact chained_encode _
  | case3 u v s h ih => exact (chained_encode _).append ih
  | case4 u v s h ih => exact (chained_encode _).append ih

/-! ## Decoding -/

/-- The code units of a Unicode scalar value. -/
def units (n : ℕ) : List UInt16 :=
  if n < 0x10000 then [UInt16.ofNat n]
  else [UInt16.ofNat (0xD800 + (n - 0x10000) / 0x400), UInt16.ofNat (0xDC00 + (n - 0x10000) % 0x400)]

/-- A sequence being decoded: the bits so far, the number of bytes to come, and the range of
the next one. -/
structure Pending where
  bits : ℕ
  need : ℕ
  low : ℕ
  high : ℕ
  need_pos : 0 < need
  need_le : need ≤ 3
  low_ge : 0x80 ≤ low
  high_lt : high < 0xC0
  nonzero : 0 < bits ∨ 0x80 < low
  small : bits < 5 * 0x40 ^ (3 - need)

/-- Behind the lead byte of a sequence of two. -/
def Pending.two (n : ℕ) (h : 0xC2 ≤ n ∧ n < 0xE0) : Pending where
  bits := n - 0xC0
  need := 1
  low := 0x80
  high := 0xBF
  need_pos := by decide
  need_le := by decide
  low_ge := by decide
  high_lt := by decide
  nonzero := by omega
  small := by omega

/-- Behind the lead byte of a sequence of three: no overlong forms, no surrogates. -/
def Pending.three (n : ℕ) (h : 0xE0 ≤ n ∧ n < 0xF0) : Pending where
  bits := n - 0xE0
  need := 2
  low := if n = 0xE0 then 0xA0 else 0x80
  high := if n = 0xED then 0x9F else 0xBF
  need_pos := by decide
  need_le := by decide
  low_ge := by split <;> decide
  high_lt := by split <;> decide
  nonzero := by split <;> omega
  small := by omega

/-- Behind the lead byte of a sequence of four: no overlong forms, nothing above U+10FFFF. -/
def Pending.four (n : ℕ) (h : 0xF0 ≤ n ∧ n < 0xF5) : Pending where
  bits := n - 0xF0
  need := 3
  low := if n = 0xF0 then 0x90 else 0x80
  high := if n = 0xF4 then 0x8F else 0xBF
  need_pos := by decide
  need_le := by decide
  low_ge := by split <;> decide
  high_lt := by split <;> decide
  nonzero := by split <;> omega
  small := by omega

/-- Behind one more continuation byte. -/
def Pending.next (p : Pending) (h : p.need ≠ 1) (n : ℕ) (hn : p.low ≤ n ∧ n ≤ p.high) : Pending where
  bits := p.bits * 0x40 + n % 0x40
  need := p.need - 1
  low := 0x80
  high := 0xBF
  need_pos := by have := p.need_pos; omega
  need_le := by have := p.need_le; omega
  low_ge := by decide
  high_lt := by decide
  nonzero := by
    have hlow := p.low_ge
    have hhigh := p.high_lt
    have := p.nonzero
    omega
  small := by
    have hneed := p.need_pos
    have hle := p.need_le
    have hsmall := p.small
    rw [show 3 - (p.need - 1) = 3 - p.need + 1 by omega, Nat.pow_succ]
    omega

/-- A byte where a sequence can start: what it decodes to at once, and what it begins. -/
def lead (b : UInt8) : List UInt16 × Option Pending :=
  if b.toNat < 0x80 then (units b.toNat, none)
  else if h2 : 0xC2 ≤ b.toNat ∧ b.toNat < 0xE0 then ([], some (.two b.toNat h2))
  else if h3 : 0xE0 ≤ b.toNat ∧ b.toNat < 0xF0 then ([], some (.three b.toNat h3))
  else if h4 : 0xF0 ≤ b.toNat ∧ b.toNat < 0xF5 then ([], some (.four b.toNat h4))
  else (units replacement, none)

/-- The decoding of the bytes to come. -/
def decode : Option Pending → List UInt8 → List UInt16
  | none, [] => []
  | some _, [] => units replacement
  | none, b :: l => (lead b).1 ++ decode (lead b).2 l
  | some p, b :: l =>
    if hb : p.low ≤ b.toNat ∧ b.toNat ≤ p.high then
      if h : p.need = 1 then units (p.bits * 0x40 + b.toNat % 0x40) ++ decode none l
      else decode (some (p.next h b.toNat hb)) l
    else units replacement ++ ((lead b).1 ++ decode (lead b).2 l)

theorem units_pos (n : ℕ) : 0 < (units n).length := by
  unfold units
  split <;> simp

/-- A byte decodes to something at once, or it begins a sequence. -/
theorem lead_cases (b : UInt8) :
    (lead b).2 = none ∧ 0 < (lead b).1.length ∨ ∃ p, lead b = ([], some p) := by
  unfold lead
  split
  · exact .inl ⟨rfl, units_pos _⟩
  · split
    · exact .inr ⟨_, rfl⟩
    · split
      · exact .inr ⟨_, rfl⟩
      · split
        · exact .inr ⟨_, rfl⟩
        · exact .inl ⟨rfl, units_pos replacement⟩

theorem lead_ascii {b : UInt8} (h : b.toNat < 0x80) : lead b = ([UInt16.ofNat b.toNat], none) := by
  unfold lead units
  rw [if_pos h, if_pos (by omega)]

/-- A continuation byte begins nothing. -/
theorem lead_continuation {b : UInt8} (h : 0x80 ≤ b.toNat ∧ b.toNat < 0xC0) :
    lead b = (units replacement, none) := by
  unfold lead
  rw [if_neg (by omega), dif_neg (by omega), dif_neg (by omega), dif_neg (by omega)]

/-- **A fresh start.** Behind an ASCII byte decoding starts afresh. -/
theorem decode_ascii {c : UInt8} (hc : c.toNat < 0x80) (st : Option Pending) (a l : List UInt8) :
    decode st (a ++ c :: l) = decode st a ++ UInt16.ofNat c.toNat :: decode none l := by
  induction a generalizing st with
  | nil =>
    cases st with
    | none =>
      conv_lhs => rw [List.nil_append, decode, lead_ascii hc]
      rfl
    | some p =>
      have hlow := p.low_ge
      conv_lhs => rw [List.nil_append, decode, dif_neg (by omega), lead_ascii hc]
      rfl
  | cons b a ih =>
    rw [List.cons_append]
    cases st with
    | none => rw [decode, decode, ih, List.append_assoc]
    | some p =>
      rw [decode, decode]
      split
      · split
        · rw [ih, List.append_assoc]
        · rw [ih]
      · rw [ih, List.append_assoc, List.append_assoc]

/-- A sequence begun decodes to something. -/
theorem decode_some_pos (p : Pending) (l : List UInt8) : 0 < (decode (some p) l).length := by
  induction l generalizing p with
  | nil => exact units_pos _
  | cons b l ih =>
    rw [decode]
    split
    · split
      · have := units_pos (p.bits * 0x40 + b.toNat % 0x40)
        rw [List.length_append]
        omega
      · exact ih _
    · have := units_pos replacement
      rw [List.length_append]
      omega

/-- Where something is, something is decoded. -/
theorem decode_pos {l : List UInt8} (h : l ≠ []) : 0 < (decode none l).length := by
  cases l with
  | nil => exact absurd rfl h
  | cons b l =>
    rw [decode, List.length_append]
    rcases lead_cases b with ⟨-, hpos⟩ | ⟨p, hp⟩
    · omega
    · have := decode_some_pos p l
      rw [hp]
      simpa using this

/-- A prefix decodes to no more. -/
theorem decode_take_le (st : Option Pending) (l : List UInt8) (k : ℕ) :
    (decode st (l.take k)).length ≤ (decode st l).length := by
  induction l generalizing st k with
  | nil => rw [List.take_nil]
  | cons b l ih =>
    cases k with
    | zero =>
      rw [List.take_zero]
      cases st with
      | none => exact Nat.zero_le _
      | some p => exact decode_some_pos p _
    | succ k =>
      rw [List.take_succ_cons]
      cases st with
      | none =>
        rw [decode, decode, List.length_append, List.length_append]
        exact Nat.add_le_add_left (ih _ k) _
      | some p =>
        rw [decode, decode]
        split
        · split
          · rw [List.length_append, List.length_append]
            exact Nat.add_le_add_left (ih _ k) _
          · exact ih _ k
        · simp only [List.length_append]
          exact Nat.add_le_add_left (Nat.add_le_add_left (ih _ k) _) _

/-- A sequence begun takes up the bytes it still needs at most. -/
theorem decode_none_le (p : Pending) (l : List UInt8) :
    (decode none l).length + 1 ≤ (decode (some p) l).length + p.need := by
  induction l generalizing p with
  | nil =>
    have := p.need_pos
    show 0 + 1 ≤ 1 + p.need
    omega
  | cons b l ih =>
    have hneed := p.need_pos
    rw [decode, decode]
    split
    · rename_i hb
      have hlow := p.low_ge
      have hhigh := p.high_lt
      rw [lead_continuation ⟨by omega, by omega⟩]
      have hone : (units replacement).length = 1 := rfl
      split
      · have := units_pos (p.bits * 0x40 + b.toNat % 0x40)
        simp only [List.length_append, hone]
        omega
      · rename_i h
        have hle := ih (p.next h b.toNat hb)
        have hnext : (p.next h b.toNat hb).need = p.need - 1 := rfl
        simp only [List.length_append, hone]
        omega
    · have := units_pos replacement
      simp only [List.length_append]
      omega

/-- The bytes of the sequence begun, four at most. -/
def begun : Option Pending → ℕ
  | none => 0
  | some p => 4 - p.need

/-- Of the bytes in front, every four decode to one code unit at least. -/
theorem decode_append_ge (st : Option Pending) (w l : List UInt8) :
    w.length + begun st + 4 * (decode none l).length ≤ 4 * (decode st (w ++ l)).length + 12 := by
  induction w generalizing st with
  | nil =>
    cases st with
    | none =>
      simp only [begun, List.length_nil, List.nil_append]
      omega
    | some p =>
      have hneed := p.need_pos
      have hle := p.need_le
      have := decode_none_le p l
      simp only [begun, List.length_nil, List.nil_append]
      omega
  | cons b w ih =>
    -- what the byte decodes to, or the sequence it begins, makes up for it
    have hlead : w.length + 1 + 4 * (decode none l).length ≤
        4 * ((lead b).1.length + (decode (lead b).2 (w ++ l)).length) + 12 := by
      have := ih (lead b).2
      rcases lead_cases b with ⟨hnone, hpos⟩ | ⟨p, hp⟩
      · rw [hnone] at this ⊢
        simp only [begun] at this
        omega
      · have hle := p.need_le
        rw [hp] at this ⊢
        simp only [begun, List.length_nil] at this ⊢
        omega
    rw [List.cons_append, List.length_cons]
    cases st with
    | none =>
      rw [decode, List.length_append]
      simp only [begun]
      omega
    | some p =>
      have hneed := p.need_pos
      have hle := p.need_le
      simp only [begun]
      rw [decode]
      split
      · rename_i hb
        split
        · have := units_pos (p.bits * 0x40 + b.toNat % 0x40)
          have := ih none
          simp only [begun] at this
          rw [List.length_append]
          omega
        · rename_i h
          have := ih (some (p.next h b.toNat hb))
          have hnext : (p.next h b.toNat hb).need = p.need - 1 := rfl
          simp only [begun, hnext] at this
          omega
      · have := units_pos replacement
        simp only [List.length_append]
        omega

/-- **Cutting off much in front** leaves less to decode. -/
theorem decode_drop_lt {l : List UInt8} {o : ℕ} (ho : 13 ≤ o) (hl : l ≠ []) (k : ℕ) :
    (decode none ((l.drop o).take k)).length < (decode none l).length := by
  have hcut := decode_take_le none (l.drop o) k
  by_cases hlen : o ≤ l.length
  · have := decode_append_ge none (l.take o) (l.drop o)
    rw [List.take_append_drop, List.length_take_of_le hlen] at this
    simp only [begun] at this
    omega
  · rw [List.drop_of_length_le (by omega)] at hcut ⊢
    have := decode_pos hl
    exact lt_of_le_of_lt hcut this

/-- Two bytes in front take up one code unit at most. -/
theorem decode_two_ge (x y : UInt8) (l : List UInt8) :
    (decode none l).length ≤ (decode none (x :: y :: l)).length + 1 := by
  have hone : (decode none l).length ≤ (decode none (y :: l)).length + 2 := by
    rw [decode, List.length_append]
    rcases lead_cases y with ⟨hnone, hpos⟩ | ⟨p, hp⟩
    · rw [hnone]
      omega
    · have hle := p.need_le
      have := decode_none_le p l
      simp only [hp, List.length_nil]
      omega
  rw [decode, List.length_append]
  rcases lead_cases x with ⟨hnone, hpos⟩ | ⟨p, hp⟩
  · rw [hnone]
    omega
  · rw [hp, List.length_nil, Nat.zero_add, decode]
    split
    · rename_i hb
      split
      · rw [List.length_append]
        omega
      · rename_i h
        have hle := p.need_le
        have := decode_none_le (p.next h y.toNat hb) l
        have hnext : (p.next h y.toNat hb).need = p.need - 1 := rfl
        omega
    · have := units_pos replacement
      rw [decode, List.length_append] at hone
      simp only [List.length_append]
      omega

/-- **Cutting off an ASCII byte in front**, with something before it and the two bytes behind it,
leaves less to decode. -/
theorem decode_drop_ascii_lt {c : UInt8} (hc : c.toNat < 0x80) {w : List UInt8} (hw : w ≠ [])
    (l : List UInt8) (k : ℕ) :
    (decode none (((w ++ c :: l).drop (w.length + 3)).take k)).length < (decode none (w ++ c :: l)).length := by
  have hcut := decode_take_le none ((w ++ c :: l).drop (w.length + 3)) k
  have hpos := decode_pos hw
  rw [List.drop_append, List.drop_of_length_le (by omega), List.nil_append, Nat.add_sub_cancel_left] at *
  rw [decode_ascii hc, List.length_append, List.length_cons]
  match l with
  | [] =>
    have hnil : (decode none (List.drop 3 [c])).length = 0 := rfl
    omega
  | [x] =>
    have hnil : (decode none (List.drop 3 [c, x])).length = 0 := rfl
    omega
  | x :: y :: l =>
    have htwo := decode_two_ge x y l
    simp only [List.drop_succ_cons, List.drop_zero] at hcut ⊢
    omega

/-- **Cutting off an ASCII byte behind** leaves less to decode. -/
theorem decode_take_ascii_lt {c : UInt8} (hc : c.toNat < 0x80) (w l : List UInt8) {k : ℕ}
    (hk : k ≤ w.length) : (decode none ((w ++ c :: l).take k)).length < (decode none (w ++ c :: l)).length := by
  have := decode_take_le none w k
  rw [List.take_append_of_le_length hk, decode_ascii hc, List.length_append, List.length_cons]
  omega

/-! ## NUL bytes -/

theorem units_ne_zero {n : ℕ} (h0 : 0 < n) (hn : n < 0xA10000) : 0 ∉ units n := by
  have hne : ∀ m, 0 < m → m < 0x10000 → (0 : UInt16) ≠ UInt16.ofNat m := by
    intro m hm hlt heq
    have := congrArg UInt16.toNat heq
    rw [UInt16.toNat_ofNat', Nat.mod_eq_of_lt (by omega)] at this
    simp at this
    omega
  unfold units
  split
  · rw [List.mem_singleton]
    exact hne n h0 (by omega)
  · rw [List.mem_cons, List.mem_singleton]
    rintro (h | h)
    · exact hne _ (by omega) (by omega) h
    · exact hne _ (by omega) (by omega) h

/-- Only a NUL byte decodes to a NUL. -/
theorem decode_no_nul {l : List UInt8} (h : 0 ∉ l) (st : Option Pending) : 0 ∉ decode st l := by
  have hrep : 0 ∉ units replacement := units_ne_zero (by decide) (by decide)
  induction l generalizing st with
  | nil =>
    cases st with
    | none => exact List.not_mem_nil
    | some p => exact hrep
  | cons b l ih =>
    rw [List.mem_cons, not_or] at h
    have hb0 : 0 < b.toNat := Nat.pos_of_ne_zero fun h0 => h.1 (UInt8.toNat_inj.1 h0).symm
    have hlead : 0 ∉ (lead b).1 ++ decode (lead b).2 l := by
      rw [List.mem_append, not_or]
      refine ⟨?_, ih h.2 _⟩
      by_cases hascii : b.toNat < 0x80
      · rw [lead, if_pos hascii]
        exact units_ne_zero hb0 (by omega)
      · rcases lead_cases b with ⟨hnone, -⟩ | ⟨p, hp⟩
        · unfold lead at hnone ⊢
          rw [if_neg hascii] at hnone ⊢
          split at hnone
          · cases hnone
          · split at hnone
            · cases hnone
            · split at hnone
              · cases hnone
              · rw [dif_neg ‹_›, dif_neg ‹_›, dif_neg ‹_›]
                exact hrep
        · rw [hp]
          exact List.not_mem_nil
    cases st with
    | none =>
      rw [decode]
      exact hlead
    | some p =>
      rw [decode]
      split
      · rename_i hb
        split
        · rename_i hneed
          rw [List.mem_append, not_or]
          have hlow := p.low_ge
          have hhigh := p.high_lt
          have hnonzero := p.nonzero
          have hsmall := p.small
          rw [hneed] at hsmall
          exact ⟨units_ne_zero (by omega) (by omega), ih h.2 none⟩
        · exact ih h.2 _
      · rw [List.mem_append, not_or]
        exact ⟨hrep, hlead⟩

/-- NUL bytes behind are NULs behind. -/
theorem decode_nuls (l : List UInt8) (k : ℕ) :
    decode none (l ++ List.replicate k 0) = decode none l ++ List.replicate k 0 := by
  induction k generalizing l with
  | zero => rw [List.replicate_zero, List.append_nil, List.replicate_zero, List.append_nil]
  | succ k ih =>
    have hnuls := ih []
    rw [List.nil_append] at hnuls
    rw [List.replicate_succ, decode_ascii (by decide), hnuls]
    rfl

/-- **The text in front of the first NUL** is decoded from the bytes in front of the first NUL. -/
theorem takeWhile_decode (l : List UInt8) :
    (decode none l).takeWhile (· ≠ 0) = decode none (l.takeWhile (· ≠ 0)) := by
  have hfront : 0 ∉ l.takeWhile (· ≠ 0) := fun h => by simpa using List.mem_takeWhile_imp h
  have hdec : (decode none (l.takeWhile (· ≠ 0))).takeWhile (· ≠ 0) = decode none (l.takeWhile (· ≠ 0)) := by
    rw [List.takeWhile_eq_self_iff]
    intro u hu
    simpa using fun h0 : u = 0 => decode_no_nul hfront none (h0 ▸ hu)
  cases hrest : l.dropWhile (· ≠ 0) with
  | nil =>
    have hl : l.takeWhile (· ≠ 0) = l := by
      conv_rhs => rw [← List.takeWhile_append_dropWhile (p := (· ≠ (0 : UInt8))) (l := l), hrest, List.append_nil]
    rw [hl] at hdec
    rw [hl, hdec]
  | cons b rest =>
    have hb : b = 0 := by
      have := List.head?_dropWhile_not (· ≠ (0 : UInt8)) l
      rw [hrest] at this
      simpa using this
    subst hb
    conv_lhs => rw [← List.takeWhile_append_dropWhile (p := (· ≠ (0 : UInt8))) (l := l), hrest]
    rw [decode_ascii (by decide), List.takeWhile_append, hdec, if_pos rfl]
    simp

end UTF8

end SocketAcl
