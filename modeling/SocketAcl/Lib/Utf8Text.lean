import SocketAcl.Lib.Utf8

/-!
# Texts in UTF-8: round trips and cuts

A text is the list of its characters (`scalars`): encoding and decoding work character by
character.

* `getBytes_eq`, `decode_encode`: the two directions, one character at a time.
* `decode_getBytes`: decoding gives a well-formed text back, and only a well-formed one.
* `length_getBytes`: the bytes are as many as the code units exactly where the text is ASCII.
* `decode_take`: a text cut behind `k` bytes decodes to the characters that fit (`whole`), and to
  one U+FFFD more where the cut falls into a character (`straddled`).
-/

namespace SocketAcl

namespace UTF8

/-! ## Characters -/

/-- A Unicode scalar value. -/
def IsScalar (n : ℕ) : Prop := n < 0xD800 ∨ 0xE000 ≤ n ∧ n < 0x110000

/-- A code unit as a character of its own: U+FFFD for a surrogate that stands alone. -/
def unit (u : UInt16) : ℕ := if isHigh u || isLow u then replacement else u.toNat

/-- The characters of a text. -/
def scalars : List UInt16 → List ℕ
  | [] => []
  | [u] => [unit u]
  | u :: v :: s =>
    if isHigh u && isLow v then
      (0x10000 + (u.toNat - 0xD800) * 0x400 + (v.toNat - 0xDC00)) :: scalars s
    else unit u :: scalars (v :: s)

/-- No surrogate stands alone. -/
def wellFormed : List UInt16 → Bool
  | [] => true
  | [u] => !(isHigh u || isLow u)
  | u :: v :: s =>
    if isHigh u && isLow v then wellFormed s else !(isHigh u || isLow u) && wellFormed (v :: s)

theorem isHigh_iff {u : UInt16} : isHigh u = true ↔ 0xD800 ≤ u.toNat ∧ u.toNat < 0xDC00 := by
  simp [isHigh]

theorem isLow_iff {u : UInt16} : isLow u = true ↔ 0xDC00 ≤ u.toNat ∧ u.toNat < 0xE000 := by
  simp [isLow]

theorem isScalar_unit (u : UInt16) : IsScalar (unit u) := by
  have hu : u.toNat < 65536 := UInt16.toNat_lt u
  unfold unit
  split
  · unfold IsScalar replacement
    omega
  · rename_i h
    rw [Bool.or_eq_true, isHigh_iff, isLow_iff] at h
    unfold IsScalar
    omega

/-- **The characters are scalar values.** -/
theorem isScalar_of_mem {s : List UInt16} {n : ℕ} (h : n ∈ scalars s) : IsScalar n := by
  fun_induction scalars s with
  | case1 => cases h
  | case2 u =>
    rw [List.mem_singleton] at h
    exact h ▸ isScalar_unit u
  | case3 u v s hpair ih =>
    rw [Bool.and_eq_true, isHigh_iff, isLow_iff] at hpair
    rcases List.mem_cons.1 h with hn | h
    · unfold IsScalar
      omega
    · exact ih h
  | case4 u v s hpair ih =>
    rcases List.mem_cons.1 h with rfl | h
    · exact isScalar_unit u
    · exact ih h

/-- **Encoding** works character by character. -/
theorem getBytes_eq (s : List UInt16) : getBytes s = (scalars s).flatMap encode := by
  fun_induction scalars s with
  | case1 => rfl
  | case2 u => rw [List.flatMap_singleton]; rfl
  | case3 u v s hpair ih => rw [getBytes, if_pos hpair, ih, List.flatMap_cons]
  | case4 u v s hpair ih => rw [getBytes, if_neg hpair, ih, List.flatMap_cons]; rfl

theorem units_unit_iff (u : UInt16) : units (unit u) = [u] ↔ (isHigh u || isLow u) = false := by
  have hu : u.toNat < 65536 := UInt16.toNat_lt u
  unfold unit
  split
  · rename_i h
    refine iff_of_false (fun heq => ?_) (by rw [h]; simp)
    obtain rfl : UInt16.ofNat replacement = u := (List.cons.inj heq).1
    exact absurd h (by decide)
  · rename_i h
    refine iff_of_true ?_ (Bool.eq_false_iff.2 h)
    rw [units, if_pos (by omega), UInt16.ofNat_toNat]

/-- **The characters give the text back** exactly where no surrogate stands alone. -/
theorem flatMap_units_iff (s : List UInt16) : (scalars s).flatMap units = s ↔ wellFormed s = true := by
  fun_induction scalars s with
  | case1 => exact iff_of_true rfl rfl
  | case2 u =>
    rw [List.flatMap_singleton, units_unit_iff, wellFormed]
    simp
  | case3 u v s hpair ih =>
    have hp := hpair
    rw [Bool.and_eq_true, isHigh_iff, isLow_iff] at hp
    -- the two code units of the character are the pair
    have hunits : units (0x10000 + (u.toNat - 0xD800) * 0x400 + (v.toNat - 0xDC00)) = [u, v] := by
      have hu : UInt16.ofNat u.toNat = u := UInt16.ofNat_toNat
      have hv : UInt16.ofNat v.toNat = v := UInt16.ofNat_toNat
      rw [units, if_neg (by omega)]
      have hhigh : 0xD800 + (0x10000 + (u.toNat - 0xD800) * 0x400 + (v.toNat - 0xDC00) - 0x10000) / 0x400 =
          u.toNat := by omega
      have hlow : 0xDC00 + (0x10000 + (u.toNat - 0xD800) * 0x400 + (v.toNat - 0xDC00) - 0x10000) % 0x400 =
          v.toNat := by omega
      rw [hhigh, hlow,
        hu, hv]
    rw [List.flatMap_cons, hunits, wellFormed, if_pos hpair, ← ih]
    simp
  | case4 u v s hpair ih =>
    rw [List.flatMap_cons, wellFormed, if_neg hpair]
    have hne : ∀ n, units n ≠ [] := fun n h => by
      have := units_pos n
      rw [h] at this
      exact absurd this (by decide)
    cases hu : (isHigh u || isLow u) with
    | false =>
      rw [(units_unit_iff u).2 hu, Bool.not_false, Bool.true_and, ← ih]
      simp
    | true =>
      have hunit : unit u = replacement := by rw [unit, if_pos hu]
      refine iff_of_false (fun heq => ?_) (by simp)
      rw [hunit] at heq
      have hhead : UInt16.ofNat replacement = u := (List.cons.inj heq).1
      rw [← hhead] at hu
      exact absurd hu (by decide)

/-! ## Decoding one character -/

theorem decode_lead {b : UInt8} {p : Pending} (h : lead b = ([], some p)) (l : List UInt8) :
    decode none (b :: l) = decode (some p) l := by
  rw [decode, h, List.nil_append]

theorem decode_more {p : Pending} {b : UInt8} (hneed : p.need ≠ 1) (hb : p.low ≤ b.toNat ∧ b.toNat ≤ p.high)
    (l : List UInt8) : decode (some p) (b :: l) = decode (some (p.next hneed b.toNat hb)) l := by
  rw [decode, dif_pos hb, dif_neg hneed]

theorem decode_last {p : Pending} {b : UInt8} (hneed : p.need = 1) (hb : p.low ≤ b.toNat ∧ b.toNat ≤ p.high)
    (l : List UInt8) : decode (some p) (b :: l) = units (p.bits * 0x40 + b.toNat % 0x40) ++ decode none l := by
  rw [decode, dif_pos hb, dif_pos hneed]

theorem toNat_byte {k : ℕ} (h : k < 256) : (UInt8.ofNat k).toNat = k := by
  rw [UInt8.toNat_ofNat']
  exact Nat.mod_eq_of_lt h

/-- A sequence of two bytes. -/
theorem decode_two {n : ℕ} (h80 : 0x80 ≤ n) (h800 : n < 0x800) : ∃ p : Pending,
    (∀ l, decode none (UInt8.ofNat (0xC0 + n / 0x40) :: l) = decode (some p) l) ∧
    ∀ l, decode (some p) (UInt8.ofNat (0x80 + n % 0x40) :: l) = units n ++ decode none l := by
  have h1 : (UInt8.ofNat (0xC0 + n / 0x40)).toNat = 0xC0 + n / 0x40 := toNat_byte (by omega)
  have h2 : (UInt8.ofNat (0x80 + n % 0x40)).toNat = 0x80 + n % 0x40 := toNat_byte (by omega)
  have hlead : lead (UInt8.ofNat (0xC0 + n / 0x40)) = ([], some (.two (0xC0 + n / 0x40) (by omega))) := by
    unfold lead
    simp only [h1]
    rw [if_neg (by omega), dif_pos (by omega)]
  refine ⟨_, decode_lead hlead, fun l => ?_⟩
  rw [decode_last rfl (by rw [h2]; exact ⟨Nat.le_add_right _ _, by show _ ≤ 0xBF; omega⟩), h2]
  congr 2
  show (0xC0 + n / 0x40 - 0xC0) * 0x40 + (0x80 + n % 0x40) % 0x40 = n
  omega

/-- A sequence of three bytes. -/
theorem decode_three {n : ℕ} (h800 : 0x800 ≤ n) (hn : n < 0x10000) (hs : n < 0xD800 ∨ 0xE000 ≤ n) :
    ∃ p q : Pending,
    (∀ l, decode none (UInt8.ofNat (0xE0 + n / 0x1000) :: l) = decode (some p) l) ∧
    (∀ l, decode (some p) (UInt8.ofNat (0x80 + n / 0x40 % 0x40) :: l) = decode (some q) l) ∧
    ∀ l, decode (some q) (UInt8.ofNat (0x80 + n % 0x40) :: l) = units n ++ decode none l := by
  have h1 : (UInt8.ofNat (0xE0 + n / 0x1000)).toNat = 0xE0 + n / 0x1000 := toNat_byte (by omega)
  have h2 : (UInt8.ofNat (0x80 + n / 0x40 % 0x40)).toNat = 0x80 + n / 0x40 % 0x40 := toNat_byte (by omega)
  have h3 : (UInt8.ofNat (0x80 + n % 0x40)).toNat = 0x80 + n % 0x40 := toNat_byte (by omega)
  have hlead : lead (UInt8.ofNat (0xE0 + n / 0x1000)) = ([], some (.three (0xE0 + n / 0x1000) (by omega))) := by
    unfold lead
    simp only [h1]
    rw [if_neg (by omega), dif_neg (by omega), dif_pos (by omega)]
  -- no overlong form and no surrogate: the second byte is in the narrower range
  have hrange : (Pending.three (0xE0 + n / 0x1000) (by omega)).low ≤ (UInt8.ofNat (0x80 + n / 0x40 % 0x40)).toNat ∧
      (UInt8.ofNat (0x80 + n / 0x40 % 0x40)).toNat ≤ (Pending.three (0xE0 + n / 0x1000) (by omega)).high := by
    rw [h2]
    show (if 0xE0 + n / 0x1000 = 0xE0 then 0xA0 else 0x80) ≤ _ ∧
      _ ≤ (if 0xE0 + n / 0x1000 = 0xED then 0x9F else 0xBF)
    split <;> split <;> omega
  have htwo : (2 : ℕ) ≠ 1 := by decide
  refine ⟨_, _, decode_lead hlead, decode_more htwo hrange, fun l => ?_⟩
  rw [decode_last rfl (by rw [h3]; exact ⟨Nat.le_add_right _ _, by show _ ≤ 0xBF; omega⟩), h3]
  congr 2
  show ((0xE0 + n / 0x1000 - 0xE0) * 0x40 + (UInt8.ofNat (0x80 + n / 0x40 % 0x40)).toNat % 0x40) * 0x40 +
    (0x80 + n % 0x40) % 0x40 = n
  omega

/-- A sequence of four bytes. -/
theorem decode_four {n : ℕ} (h10000 : 0x10000 ≤ n) (hn : n < 0x110000) : ∃ p q r : Pending,
    (∀ l, decode none (UInt8.ofNat (0xF0 + n / 0x40000) :: l) = decode (some p) l) ∧
    (∀ l, decode (some p) (UInt8.ofNat (0x80 + n / 0x1000 % 0x40) :: l) = decode (some q) l) ∧
    (∀ l, decode (some q) (UInt8.ofNat (0x80 + n / 0x40 % 0x40) :: l) = decode (some r) l) ∧
    ∀ l, decode (some r) (UInt8.ofNat (0x80 + n % 0x40) :: l) = units n ++ decode none l := by
  have h1 : (UInt8.ofNat (0xF0 + n / 0x40000)).toNat = 0xF0 + n / 0x40000 := toNat_byte (by omega)
  have h2 : (UInt8.ofNat (0x80 + n / 0x1000 % 0x40)).toNat = 0x80 + n / 0x1000 % 0x40 := toNat_byte (by omega)
  have h3 : (UInt8.ofNat (0x80 + n / 0x40 % 0x40)).toNat = 0x80 + n / 0x40 % 0x40 := toNat_byte (by omega)
  have h4 : (UInt8.ofNat (0x80 + n % 0x40)).toNat = 0x80 + n % 0x40 := toNat_byte (by omega)
  have hlead : lead (UInt8.ofNat (0xF0 + n / 0x40000)) = ([], some (.four (0xF0 + n / 0x40000) (by omega))) := by
    unfold lead
    simp only [h1]
    rw [if_neg (by omega), dif_neg (by omega), dif_neg (by omega), dif_pos (by omega)]
  -- no overlong form and nothing above U+10FFFF
  have hrange : (Pending.four (0xF0 + n / 0x40000) (by omega)).low ≤
      (UInt8.ofNat (0x80 + n / 0x1000 % 0x40)).toNat ∧
      (UInt8.ofNat (0x80 + n / 0x1000 % 0x40)).toNat ≤ (Pending.four (0xF0 + n / 0x40000) (by omega)).high := by
    rw [h2]
    show (if 0xF0 + n / 0x40000 = 0xF0 then 0x90 else 0x80) ≤ _ ∧
      _ ≤ (if 0xF0 + n / 0x40000 = 0xF4 then 0x8F else 0xBF)
    split <;> split <;> omega
  have hnext : 0x80 ≤ (UInt8.ofNat (0x80 + n / 0x40 % 0x40)).toNat ∧
      (UInt8.ofNat (0x80 + n / 0x40 % 0x40)).toNat ≤ 0xBF := by omega
  have hthree : (3 : ℕ) ≠ 1 := by decide
  have htwo : (2 : ℕ) ≠ 1 := by decide
  refine ⟨_, _, _, decode_lead hlead, decode_more hthree hrange, decode_more htwo hnext, fun l => ?_⟩
  rw [decode_last rfl (by rw [h4]; exact ⟨Nat.le_add_right _ _, by show _ ≤ 0xBF; omega⟩), h4]
  congr 2
  show (((0xF0 + n / 0x40000 - 0xF0) * 0x40 + (UInt8.ofNat (0x80 + n / 0x1000 % 0x40)).toNat % 0x40) * 0x40 +
    (UInt8.ofNat (0x80 + n / 0x40 % 0x40)).toNat % 0x40) * 0x40 + (0x80 + n % 0x40) % 0x40 = n
  omega

/-- **One character.** It is decoded whole, and each part of it but the whole leaves a sequence begun. -/
theorem decode_character {n : ℕ} (hn : IsScalar n) :
    (∀ l, decode none (encode n ++ l) = units n ++ decode none l) ∧
      ∀ j, 0 < j → j < (encode n).length → ∃ p, decode none ((encode n).take j) = decode (some p) [] := by
  unfold IsScalar at hn
  by_cases h80 : n < 0x80
  · have hb : (UInt8.ofNat n).toNat = n := toNat_byte (by omega)
    have hencode : encode n = [UInt8.ofNat n] := by rw [encode, if_pos h80]
    rw [hencode]
    refine ⟨fun l => ?_, fun j h0 hj => absurd hj (by simp; omega)⟩
    have := decode_ascii (by omega : (UInt8.ofNat n).toNat < 0x80) none [] l
    rw [List.nil_append] at this
    rw [List.singleton_append, this, hb, units, if_pos (by omega)]
    rfl
  by_cases h800 : n < 0x800
  · obtain ⟨p, hp, hlast⟩ := decode_two (by omega) h800
    have hencode : encode n = [UInt8.ofNat (0xC0 + n / 0x40), UInt8.ofNat (0x80 + n % 0x40)] := by
      rw [encode, if_neg h80, if_pos h800]
    rw [hencode]
    refine ⟨fun l => (hp _).trans (hlast l), fun j h0 hj => ?_⟩
    match j, h0, hj with
    | 1, _, _ => exact ⟨p, hp []⟩
  by_cases h10000 : n < 0x10000
  · obtain ⟨p, q, hp, hq, hlast⟩ := decode_three (by omega) h10000 (by omega)
    have hencode : encode n = [UInt8.ofNat (0xE0 + n / 0x1000), UInt8.ofNat (0x80 + n / 0x40 % 0x40),
        UInt8.ofNat (0x80 + n % 0x40)] := by
      rw [encode, if_neg h80, if_neg h800, if_pos h10000]
    rw [hencode]
    refine ⟨fun l => (hp _).trans ((hq _).trans (hlast l)), fun j h0 hj => ?_⟩
    match j, h0, hj with
    | 1, _, _ => exact ⟨p, hp []⟩
    | 2, _, _ => exact ⟨q, (hp _).trans (hq [])⟩
  · obtain ⟨p, q, r, hp, hq, hr, hlast⟩ := decode_four (by omega : 0x10000 ≤ n) (by omega)
    have hencode : encode n = [UInt8.ofNat (0xF0 + n / 0x40000), UInt8.ofNat (0x80 + n / 0x1000 % 0x40),
        UInt8.ofNat (0x80 + n / 0x40 % 0x40), UInt8.ofNat (0x80 + n % 0x40)] := by
      rw [encode, if_neg h80, if_neg h800, if_neg h10000]
    rw [hencode]
    refine ⟨fun l => (hp _).trans ((hq _).trans ((hr _).trans (hlast l))), fun j h0 hj => ?_⟩
    match j, h0, hj with
    | 1, _, _ => exact ⟨p, hp []⟩
    | 2, _, _ => exact ⟨q, (hp _).trans (hq [])⟩
    | 3, _, _ => exact ⟨r, (hp _).trans ((hq _).trans (hr []))⟩

theorem decode_encode {n : ℕ} (hn : IsScalar n) (l : List UInt8) :
    decode none (encode n ++ l) = units n ++ decode none l := (decode_character hn).1 l

/-- A character cut off is replaced by one U+FFFD. -/
theorem decode_encode_take {n j : ℕ} (hn : IsScalar n) (h0 : 0 < j) (hj : j < (encode n).length) :
    decode none ((encode n).take j) = units replacement := by
  obtain ⟨p, hp⟩ := (decode_character hn).2 j h0 hj
  exact hp

/-- **Decoding** works character by character. -/
theorem decode_flatMap {cs : List ℕ} (hcs : ∀ n ∈ cs, IsScalar n) (l : List UInt8) :
    decode none (cs.flatMap encode ++ l) = cs.flatMap units ++ decode none l := by
  induction cs with
  | nil => rfl
  | cons n cs ih =>
    rw [List.flatMap_cons, List.flatMap_cons, List.append_assoc, List.append_assoc,
      decode_encode (hcs n List.mem_cons_self), ih fun m hm => hcs m (List.mem_cons_of_mem _ hm)]

/-- **Round trip.** A text is decoded as it was exactly where no surrogate stands alone. -/
theorem decode_getBytes (s : List UInt16) : decode none (getBytes s) = s ↔ wellFormed s = true := by
  have halone := decode_flatMap (fun n hn => isScalar_of_mem (s := s) hn) []
  rw [List.append_nil] at halone
  rw [getBytes_eq, halone, ← flatMap_units_iff]
  simp [decode]

/-! ## NULs and ASCII -/

/-- NUL bytes in front are NULs in front. -/
theorem decode_nuls_append (k : ℕ) (l : List UInt8) :
    decode none (List.replicate k 0 ++ l) = List.replicate k 0 ++ decode none l := by
  induction k with
  | zero => rfl
  | succ k ih =>
    have hnul := decode_ascii (c := 0) (by decide) none [] (List.replicate k 0 ++ l)
    rw [List.nil_append] at hnul
    rw [List.replicate_succ, List.cons_append, hnul, ih]
    rfl

/-- NULs behind a text are NUL bytes behind it. -/
theorem getBytes_nuls (s : List UInt16) (k : ℕ) :
    getBytes (s ++ List.replicate k 0) = getBytes s ++ List.replicate k 0 := by
  have hnuls : ∀ k, getBytes (List.replicate k 0) = List.replicate k 0 := by
    intro k
    induction k with
    | zero => rfl
    | succ k ih =>
      cases k with
      | zero => rfl
      | succ k =>
        rw [List.replicate_succ] at ih ⊢
        rw [List.replicate_succ, getBytes, if_neg (by decide), ih]
        rfl
  fun_induction getBytes s with
  | case1 => exact hnuls k
  | case2 u =>
    cases k with
    | zero => rw [List.replicate_zero, List.append_nil, List.replicate_zero, List.append_nil]; rfl
    | succ k =>
      -- a NUL is no low surrogate
      have hlow : ¬ (isHigh u && isLow 0) = true := by
        rw [show isLow 0 = false from rfl, Bool.and_false]
        exact Bool.false_ne_true
      have := hnuls (k + 1)
      rw [List.replicate_succ] at this ⊢
      rw [List.singleton_append, getBytes, if_neg hlow, this]
  | case3 u v s hpair ih =>
    rw [List.cons_append, List.cons_append, getBytes, if_pos hpair, ih, List.append_assoc]
  | case4 u v s hpair ih =>
    rw [List.cons_append, List.cons_append, getBytes, if_neg hpair, ← List.cons_append, ih, List.append_assoc]

/-- Only a NUL is encoded as a NUL byte. -/
theorem getBytes_no_nul {s : List UInt16} (h : 0 ∉ s) : 0 ∉ getBytes s := by
  have hbyte : ∀ k, 0 < k → k < 256 → (0 : UInt8) ≠ UInt8.ofNat k := by
    intro k h0 hk heq
    have := toNat_byte hk
    rw [← heq] at this
    simp at this
    omega
  have hencode : ∀ n, 0 < n → n < 0x110000 → 0 ∉ encode n := by
    intro n h0 hn
    unfold encode
    split
    · simpa using hbyte n h0 (by omega)
    · split
      · simp only [List.mem_cons, List.not_mem_nil, or_false, not_or]
        exact ⟨hbyte _ (by omega) (by omega), hbyte _ (by omega) (by omega)⟩
      · split
        · simp only [List.mem_cons, List.not_mem_nil, or_false, not_or]
          exact ⟨hbyte _ (by omega) (by omega), hbyte _ (by omega) (by omega), hbyte _ (by omega) (by omega)⟩
        · simp only [List.mem_cons, List.not_mem_nil, or_false, not_or]
          exact ⟨hbyte _ (by omega) (by omega), hbyte _ (by omega) (by omega), hbyte _ (by omega) (by omega),
            hbyte _ (by omega) (by omega)⟩
  have hunit : ∀ u : UInt16, u ≠ 0 → 0 ∉ encodeUnit u := by
    intro u hu
    have hlt : u.toNat < 65536 := UInt16.toNat_lt u
    have hpos : 0 < u.toNat := Nat.pos_of_ne_zero fun h0 => hu (UInt16.toNat_inj.1 h0)
    unfold encodeUnit
    split
    · exact hencode _ (by decide) (by decide)
    · exact hencode _ hpos (by omega)
  fun_induction getBytes s with
  | case1 => exact List.not_mem_nil
  | case2 u => exact hunit u fun h0 => h (h0 ▸ List.mem_cons_self)
  | case3 u v s hpair ih =>
    rw [Bool.and_eq_true, isHigh_iff, isLow_iff] at hpair
    rw [List.mem_append, not_or]
    exact ⟨hencode _ (by omega) (by omega), ih fun h0 => h (List.mem_cons_of_mem _ (List.mem_cons_of_mem _ h0))⟩
  | case4 u v s hpair ih =>
    rw [List.mem_append, not_or]
    exact ⟨hunit u fun h0 => h (h0 ▸ List.mem_cons_self), ih fun h0 => h (List.mem_cons_of_mem _ h0)⟩

/-- A NUL of the text is a NUL byte. -/
theorem mem_getBytes {s : List UInt16} (h : 0 ∈ s) : 0 ∈ getBytes s := by
  have hunit : (0 : UInt8) ∈ encodeUnit 0 := by decide
  fun_induction getBytes s with
  | case1 => exact absurd h List.not_mem_nil
  | case2 u =>
    rw [← List.mem_singleton.1 h]
    exact hunit
  | case3 u v s hpair ih =>
    rw [Bool.and_eq_true] at hpair
    rw [List.mem_append]
    -- no half of a pair is a NUL
    rcases List.mem_cons.1 h with rfl | h
    · exact absurd hpair.1 (by decide)
    rcases List.mem_cons.1 h with rfl | h
    · exact absurd hpair.2 (by decide)
    exact .inr (ih h)
  | case4 u v s hpair ih =>
    rw [List.mem_append]
    rcases List.mem_cons.1 h with rfl | h
    · exact .inl hunit
    · exact .inr (ih h)

/-- Every code unit is an ASCII character. -/
def isAscii (s : List UInt16) : Bool := s.all fun u => u.toNat < 0x80

theorem length_encodeUnit (u : UInt16) : (encodeUnit u).length = 1 ↔ u.toNat < 0x80 := by
  have hlen : ∀ n, (encode n).length = 1 ↔ n < 0x80 := by
    intro n
    unfold encode
    split
    · exact iff_of_true rfl ‹_›
    · split
      · exact iff_of_false (by simp) ‹_›
      · split <;> exact iff_of_false (by simp) ‹_›
  unfold encodeUnit
  rw [hlen]
  split
  · rename_i h
    rw [Bool.or_eq_true, isHigh_iff, isLow_iff] at h
    refine iff_of_false (by decide) (by omega)
  · rfl

/-- **A byte for every code unit** exactly where the text is ASCII. -/
theorem length_getBytes (s : List UInt16) : (getBytes s).length = s.length ↔ isAscii s = true := by
  fun_induction getBytes s with
  | case1 => exact iff_of_true rfl rfl
  | case2 u =>
    rw [List.length_singleton, length_encodeUnit]
    simp [isAscii]
  | case3 u v s hpair ih =>
    rw [Bool.and_eq_true, isHigh_iff, isLow_iff] at hpair
    have hlong : 4 ≤ (encode (0x10000 + (u.toNat - 0xD800) * 0x400 + (v.toNat - 0xDC00))).length := by
      unfold encode
      rw [if_neg (by omega), if_neg (by omega), if_neg (by omega)]
      exact le_rfl
    have hle := length_le_getBytes s
    refine iff_of_false ?_ ?_
    · intro h
      rw [List.length_append, List.length_cons, List.length_cons] at h
      omega
    · simp [isAscii]
      omega
  | case4 u v s hpair ih =>
    have hpos := encode_pos (if isHigh u || isLow u then replacement else u.toNat)
    have hle := length_le_getBytes (v :: s)
    have hunit := length_encodeUnit u
    have hall : isAscii (u :: v :: s) = (decide (u.toNat < 0x80) && isAscii (v :: s)) := rfl
    rw [hall, Bool.and_eq_true, decide_eq_true_eq, ← ih, ← hunit, List.length_append, List.length_cons]
    unfold encodeUnit at hunit ⊢
    omega

/-! ## Cuts -/

/-- The characters that fit into `k` bytes. -/
def whole : ℕ → List ℕ → List ℕ
  | _, [] => []
  | k, n :: cs => if (encode n).length ≤ k then n :: whole (k - (encode n).length) cs else []

/-- The character that a cut behind `k` bytes falls into. -/
def straddled : ℕ → List ℕ → Option ℕ
  | _, [] => none
  | k, n :: cs =>
    if (encode n).length ≤ k then straddled (k - (encode n).length) cs
    else if k = 0 then none else some n

/-- The characters that fit are a prefix, and the one the cut falls into is the next. -/
theorem whole_prefix (k : ℕ) (cs : List ℕ) : whole k cs ++ (straddled k cs).toList <+: cs := by
  fun_induction whole k cs with
  | case1 => exact List.prefix_rfl
  | case2 k n cs hfit ih =>
    rw [straddled, if_pos hfit, List.cons_append]
    exact List.cons_prefix_cons.2 ⟨rfl, ih⟩
  | case3 k n cs hfit =>
    rw [straddled, if_neg hfit, List.nil_append]
    split
    · exact List.nil_prefix
    · exact List.cons_prefix_cons.2 ⟨rfl, List.nil_prefix⟩

/-- **A cut** leaves the characters that fit, and one U+FFFD for a character it falls into. -/
theorem decode_take {cs : List ℕ} (hcs : ∀ n ∈ cs, IsScalar n) (k : ℕ) :
    decode none ((cs.flatMap encode).take k) =
      (whole k cs).flatMap units ++ (straddled k cs).toList.flatMap fun _ => units replacement := by
  fun_induction whole k cs with
  | case1 =>
    rw [List.flatMap_nil, List.take_nil]
    rfl
  | case2 k n cs hfit ih =>
    have hn := hcs n List.mem_cons_self
    have htake : (encode n).take k = encode n := List.take_of_length_le hfit
    have hrest : ∀ m ∈ cs, IsScalar m := fun m hm => hcs m (List.mem_cons_of_mem _ hm)
    rw [List.flatMap_cons, List.take_append, htake, decode_encode hn, ih hrest,
      List.flatMap_cons, List.append_assoc, straddled, if_pos hfit]
  | case3 k n cs hfit =>
    have hn := hcs n List.mem_cons_self
    rw [List.flatMap_cons, List.take_append_of_le_length (by omega), straddled, if_neg hfit]
    split
    · rename_i h0
      rw [h0, List.take_zero]
      rfl
    · rw [decode_encode_take hn (by omega) (by omega)]
      rfl

/-- A text that fits is not cut. -/
theorem straddled_of_le {k : ℕ} {cs : List ℕ} (h : (cs.flatMap encode).length ≤ k) : straddled k cs = none := by
  fun_induction straddled k cs with
  | case1 => rfl
  | case2 k n cs hfit ih =>
    rw [List.flatMap_cons, List.length_append] at h
    exact ih (by omega)
  | case3 => rfl
  | case4 k n cs hfit h0 =>
    rw [List.flatMap_cons, List.length_append] at h
    omega

theorem ofNat_injective {m n : ℕ} (hm : m < 0x10000) (hn : n < 0x10000) (h : UInt16.ofNat m = UInt16.ofNat n) :
    m = n := by
  have hnat := congrArg UInt16.toNat h
  rwa [UInt16.toNat_ofNat', UInt16.toNat_ofNat', Nat.mod_eq_of_lt hm, Nat.mod_eq_of_lt hn] at hnat

/-- No other character begins with the unit of U+FFFD. -/
theorem eq_replacement {n : ℕ} (hn : IsScalar n) {a b : List UInt16} (h : units replacement ++ a = units n ++ b) :
    n = replacement := by
  have hlt : replacement < 0x10000 := by decide
  have hrep : units replacement = [UInt16.ofNat replacement] := rfl
  unfold IsScalar at hn
  have hhead := congrArg List.head? h
  rw [hrep, units] at hhead
  split at hhead
  · rename_i hshort
    exact (ofNat_injective hlt hshort (Option.some.inj hhead)).symm
  · -- the first of a pair is a surrogate
    have hpair := ofNat_injective hlt (by omega) (Option.some.inj hhead)
    unfold replacement at hpair
    omega

/-- **The cut text is a prefix made of whole characters** exactly where the cut falls into none, or
into one that is a U+FFFD itself. -/
theorem prefix_iff (s : List UInt16) (k : ℕ) :
    (∃ cs, cs <+: scalars s ∧ decode none ((getBytes s).take k) = cs.flatMap units) ↔
      ∀ n ∈ straddled k (scalars s), n = replacement := by
  have hcs : ∀ n ∈ scalars s, IsScalar n := fun n hn => isScalar_of_mem hn
  have hwhole := whole_prefix k (scalars s)
  rw [getBytes_eq, decode_take hcs]
  cases hcut : straddled k (scalars s) with
  | none =>
    rw [hcut, Option.toList_none, List.append_nil] at hwhole
    refine iff_of_true ⟨_, hwhole, ?_⟩ (fun n hn => by cases hn)
    rw [Option.toList_none, List.flatMap_nil, List.append_nil]
  | some n =>
    rw [hcut, Option.toList_some] at hwhole
    rw [Option.toList_some, List.flatMap_singleton]
    constructor
    · rintro ⟨cs, ⟨rest, hrest⟩, heq⟩ m hm
      obtain rfl := Option.mem_some_iff.1 hm
      obtain ⟨rest', hrest'⟩ := hwhole
      -- in both ways of writing the text, what stands behind the characters that fit
      have htext : (whole k (scalars s)).flatMap units ++ units replacement ++ rest.flatMap units =
          (whole k (scalars s)).flatMap units ++ units n ++ rest'.flatMap units := by
        rw [heq, ← List.flatMap_append, hrest]
        conv_lhs => rw [← hrest']
        rw [List.flatMap_append, List.flatMap_append, List.flatMap_singleton]
      rw [List.append_assoc, List.append_assoc] at htext
      exact eq_replacement (hcs n (hrest' ▸ by simp)) (List.append_cancel_left htext)
    · intro h
      obtain rfl := h n rfl
      exact ⟨_, hwhole, by rw [List.flatMap_append, List.flatMap_singleton]⟩

end UTF8

end SocketAcl
