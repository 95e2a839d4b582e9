import Mathlib.Data.List.GetD
import Mathlib.Data.List.TakeWhile
import Mathlib.Data.Vector.Basic
import Mathlib.Tactic.Common

/-!
# Memory, C strings and machine words

The memory primitives both programs use: `memcpy` into a buffer, fixed arrays, C strings,
`strncpy`, and little-endian words.
-/

namespace SocketAcl

abbrev Bytes := List UInt8

/-- `std::array<char, n>`: exactly `n` bytes. -/
abbrev Chars (n : ℕ) := List.Vector UInt8 n

/-- The C string that starts at the front of `m`: the bytes up to the first NUL. -/
def cstr (m : Bytes) : Bytes := m.takeWhile (· ≠ 0)

/-- `n` NUL bytes. -/
def zeros (n : ℕ) : Bytes := List.replicate n 0

/-- A zero-filled buffer of `n` bytes after a read put `data` at its front. -/
def fill (n : ℕ) (data : Bytes) : Bytes := data ++ zeros (n - data.length)

/-- The `n` bytes at offset `off` (bytes behind the end of `m` read as zero). -/
def window (off n : ℕ) (m : Bytes) : Chars n := .ofFn fun i => m.getD (off + i) 0

/-- `memcpy(m + off, bs, bs.size())`. -/
def memcpy (off : ℕ) (bs m : Bytes) : Bytes := m.take off ++ bs ++ m.drop (off + bs.length)

/-- `strncpy(dest, src, n)` into a zero-initialised array of `n + 1` chars: at most `n` bytes
of the C string `src`, then zeros. -/
def strncpy (n : ℕ) (src : Bytes) : Chars (n + 1) := window 0 (n + 1) ((cstr src).take n)

/-- The two bytes of a 16-bit word, low byte first. -/
def u16Bytes (x : UInt16) : Bytes := [UInt8.ofNat (x.toNat % 256), UInt8.ofNat (x.toNat / 256)]

/-- The 16-bit word at offset `off`. -/
def u16At (off : ℕ) (m : Bytes) : UInt16 :=
  UInt16.ofNat ((m.getD off 0).toNat + 256 * (m.getD (off + 1) 0).toNat)

/-- The four bytes of an `int`, low byte first. -/
def i32Bytes (x : Int32) : Bytes :=
  let n := x.toUInt32.toNat
  [UInt8.ofNat (n % 256), UInt8.ofNat (n / 256 % 256), UInt8.ofNat (n / 65536 % 256),
    UInt8.ofNat (n / 16777216)]

/-- The `int` at offset `off`. -/
def i32At (off : ℕ) (m : Bytes) : Int32 :=
  (UInt32.ofNat ((m.getD off 0).toNat + 256 * (m.getD (off + 1) 0).toNat +
    65536 * (m.getD (off + 2) 0).toNat + 16777216 * (m.getD (off + 3) 0).toNat)).toInt32

/-- The `int` that is read tells its four bytes. -/
theorem i32At_inj {off : ℕ} {m m' : Bytes} (h : i32At off m = i32At off m') :
    ∀ i < 4, m.getD (off + i) 0 = m'.getD (off + i) 0 := by
  have hlt : ∀ (m : Bytes) (i : ℕ), (m.getD i 0).toNat < 256 := fun m i => UInt8.toNat_lt _
  have h0 := hlt m off
  have h0' := hlt m' off
  have h1 := hlt m (off + 1)
  have h1' := hlt m' (off + 1)
  have h2 := hlt m (off + 2)
  have h2' := hlt m' (off + 2)
  have h3 := hlt m (off + 3)
  have h3' := hlt m' (off + 3)
  have hword := congrArg (fun x => x.toUInt32.toNat) h
  simp only [i32At, UInt32.toUInt32_toInt32, UInt32.toNat_ofNat'] at hword
  intro i hi
  apply UInt8.toNat_inj.1
  match i with
  | 0 => rw [Nat.add_zero]; omega
  | 1 => omega
  | 2 => omega
  | 3 => omega

/-- A word is read from its two bytes. -/
theorem u16At_eq {off : ℕ} {m : Bytes} {x : UInt16} (h0 : m.getD off 0 = UInt8.ofNat (x.toNat % 256))
    (h1 : m.getD (off + 1) 0 = UInt8.ofNat (x.toNat / 256)) : u16At off m = x := by
  have hx : x.toNat < 65536 := UInt16.toNat_lt x
  apply UInt16.toNat_inj.1
  rw [u16At, h0, h1, UInt16.toNat_ofNat', UInt8.toNat_ofNat', UInt8.toNat_ofNat']
  omega

/-- The two bytes a word was read from. -/
theorem u16Bytes_u16At (off : ℕ) (m : Bytes) : u16Bytes (u16At off m) = [m.getD off 0, m.getD (off + 1) 0] := by
  have h0 : (m.getD off 0).toNat < 256 := UInt8.toNat_lt _
  have h1 : (m.getD (off + 1) 0).toNat < 256 := UInt8.toNat_lt _
  have hword : (u16At off m).toNat = (m.getD off 0).toNat + 256 * (m.getD (off + 1) 0).toNat := by
    rw [u16At, UInt16.toNat_ofNat']
    exact Nat.mod_eq_of_lt (by omega)
  unfold u16Bytes
  rw [hword]
  congr
  · apply UInt8.toNat_inj.1
    rw [UInt8.toNat_ofNat']
    omega
  · apply UInt8.toNat_inj.1
    rw [UInt8.toNat_ofNat']
    omega

/-- An `int` is read from its four bytes. -/
theorem i32At_eq {off : ℕ} {m : Bytes} {x : Int32} (h0 : m.getD off 0 = UInt8.ofNat (x.toUInt32.toNat % 256))
    (h1 : m.getD (off + 1) 0 = UInt8.ofNat (x.toUInt32.toNat / 256 % 256))
    (h2 : m.getD (off + 2) 0 = UInt8.ofNat (x.toUInt32.toNat / 65536 % 256))
    (h3 : m.getD (off + 3) 0 = UInt8.ofNat (x.toUInt32.toNat / 16777216)) : i32At off m = x := by
  have hx : x.toUInt32.toNat < 4294967296 := UInt32.toNat_lt _
  rw [i32At, h0, h1, h2, h3, UInt8.toNat_ofNat', UInt8.toNat_ofNat', UInt8.toNat_ofNat', UInt8.toNat_ofNat',
    ← Int32.toInt32_toUInt32 x]
  congr 1
  apply UInt32.toNat_inj.1
  rw [UInt32.toNat_ofNat', Int32.toInt32_toUInt32]
  omega

/-- The four bytes an `int` was read from. -/
theorem i32Bytes_i32At (off : ℕ) (m : Bytes) : i32Bytes (i32At off m) =
    [m.getD off 0, m.getD (off + 1) 0, m.getD (off + 2) 0, m.getD (off + 3) 0] := by
  have h0 : (m.getD off 0).toNat < 256 := UInt8.toNat_lt _
  have h1 : (m.getD (off + 1) 0).toNat < 256 := UInt8.toNat_lt _
  have h2 : (m.getD (off + 2) 0).toNat < 256 := UInt8.toNat_lt _
  have h3 : (m.getD (off + 3) 0).toNat < 256 := UInt8.toNat_lt _
  have hword : (i32At off m).toUInt32.toNat = (m.getD off 0).toNat + 256 * (m.getD (off + 1) 0).toNat +
      65536 * (m.getD (off + 2) 0).toNat + 16777216 * (m.getD (off + 3) 0).toNat := by
    rw [i32At, UInt32.toUInt32_toInt32, UInt32.toNat_ofNat']
    exact Nat.mod_eq_of_lt (by omega)
  have hbyte : ∀ (n : ℕ) (b : UInt8), n % 256 = b.toNat → UInt8.ofNat n = b := by
    intro n b hn
    apply UInt8.toNat_inj.1
    rw [UInt8.toNat_ofNat', hn]
  unfold i32Bytes
  simp only [hword]
  rw [hbyte _ (m.getD off 0) (by omega), hbyte _ (m.getD (off + 1) 0) (by omega),
    hbyte _ (m.getD (off + 2) 0) (by omega), hbyte _ (m.getD (off + 3) 0) (by omega)]

theorem fill_length {n : ℕ} {data : Bytes} (h : data.length ≤ n) : (fill n data).length = n := by
  simp [fill, zeros]; omega

/-- A zero-filled buffer reads as the data, then zeros. -/
theorem fill_getD (n : ℕ) (data : Bytes) (i : ℕ) : (fill n data).getD i 0 = data.getD i 0 := by
  unfold fill zeros
  by_cases h : i < data.length
  · simp [List.getD_eq_getElem?_getD, List.getElem?_append_left h]
  · rw [List.getD_eq_getElem?_getD, List.getD_eq_getElem?_getD, List.getElem?_append_right (by omega),
      List.getElem?_eq_none (l := data) (by omega), List.getElem?_replicate]
    split <;> rfl

/-- Zeros behind a memory do not show. -/
theorem append_zeros_getD (l : Bytes) (k i : ℕ) : (l ++ zeros k).getD i 0 = l.getD i 0 := by
  have := fill_getD (l.length + k) l i
  rwa [fill, Nat.add_sub_cancel_left] at this

/-- The same in front of other memory. -/
theorem fill_append_getD {n : ℕ} {data rest : Bytes} {i : ℕ} (hlen : data.length ≤ n) (hi : i < n) :
    (fill n data ++ rest).getD i 0 = data.getD i 0 := by
  have hfill := fill_length hlen
  rw [← fill_getD n data i, List.getD_eq_getElem?_getD, List.getD_eq_getElem?_getD,
    List.getElem?_append_left (by omega)]

theorem getD_drop (m : Bytes) (o i : ℕ) : (m.drop o).getD i 0 = m.getD (o + i) 0 := by
  rw [List.getD_eq_getElem?_getD, List.getD_eq_getElem?_getD, List.getElem?_drop]

/-- What a piece of a memory shows stands in the memory. -/
theorem getD_piece {m : Bytes} {o n i : ℕ} (h : ((m.drop o).take n).getD i 0 ≠ 0) :
    m.getD (o + i) 0 = ((m.drop o).take n).getD i 0 := by
  have hi : i < n := by
    by_contra hi
    rw [List.getD_eq_getElem?_getD, List.getElem?_take_eq_none (by omega)] at h
    exact h rfl
  rw [List.getD_eq_getElem?_getD, List.getD_eq_getElem?_getD, List.getElem?_take_of_lt hi, List.getElem?_drop]

theorem window_get (off n : ℕ) (m : Bytes) (i : Fin n) : (window off n m).get i = m.getD (off + i) 0 :=
  List.Vector.get_ofFn _ i

/-- Two windows agree exactly when the bytes they show do. -/
theorem window_eq_iff {off n : ℕ} {m m' : Bytes} :
    window off n m = window off n m' ↔ ∀ i < n, m.getD (off + i) 0 = m'.getD (off + i) 0 := by
  constructor
  · intro h i hi
    have := congrArg (fun v => List.Vector.get v ⟨i, hi⟩) h
    simpa only [window_get] using this
  · intro h
    refine List.Vector.ext fun i => ?_
    rw [window_get, window_get]
    exact h i i.isLt

theorem cstr_no_nul (m : Bytes) : 0 ∉ cstr m := by
  intro h
  simpa using List.mem_takeWhile_imp h

/-- A C string without NULs is what `data()` and `c_str()` give back. -/
theorem cstr_of_no_nul {m : Bytes} (h : 0 ∉ m) : cstr m = m := by
  unfold cstr
  rw [List.takeWhile_eq_self_iff]
  intro b hb
  simpa using fun h0 : b = 0 => h (h0 ▸ hb)

/-- A C string ends at its NUL. -/
theorem cstr_append_nul {a l : Bytes} (h : 0 ∉ a) : cstr (a ++ 0 :: l) = a := by
  unfold cstr
  rw [List.takeWhile_append_of_pos, List.takeWhile_cons_of_neg (by decide), List.append_nil]
  intro b hb
  simpa using fun h0 : b = 0 => h (h0 ▸ hb)

theorem cstr_take (m : Bytes) (k : ℕ) : cstr (m.take k) = (cstr m).take k := List.take_takeWhile.symm

theorem cstr_append_zeros (m : Bytes) (k : ℕ) : cstr (m ++ zeros k) = cstr m := by
  unfold cstr zeros
  rw [List.takeWhile_append]
  split
  · rename_i hlen
    rw [(List.takeWhile_prefix _).eq_of_length hlen, List.takeWhile_replicate]
    simp
  · rfl

/-- Behind a text in a zero-filled field stands the rest of that text. -/
theorem cstr_drop_fill {n j : ℕ} {t : Bytes} (rest : Bytes) (h0 : 0 ∉ t) (hlen : t.length < n) (hj : j < n) :
    cstr ((fill n t ++ rest).drop j) = t.drop j := by
  have h0' : 0 ∉ t.drop j := fun h => h0 (List.mem_of_mem_drop h)
  unfold fill zeros
  rw [List.append_assoc, List.drop_append, List.drop_append, List.drop_replicate, List.length_replicate,
    show n - t.length - (j - t.length) = n - t.length - (j - t.length) - 1 + 1 by omega,
    List.replicate_succ, List.cons_append, cstr_append_nul h0']

/-- The piece of a C string that a piece of the memory shows. -/
theorem cstr_piece (m : Bytes) (o n i : ℕ) :
    cstr (((m.drop o).take n).drop i) = (cstr (m.drop (o + i))).take (n - i) := by
  rw [List.drop_take, List.drop_drop, cstr_take]

/-- A byte that is read is part of the memory. -/
theorem exists_of_getD {m : Bytes} {i : ℕ} {b : UInt8} (h : m.getD i 0 = b) (hb : b ≠ 0) :
    ∃ a l, m = a ++ b :: l ∧ a.length = i := by
  have hi : i < m.length := by
    by_contra hge
    rw [List.getD_eq_default _ _ (by omega)] at h
    exact hb h.symm
  rw [List.getD_eq_getElem _ _ hi] at h
  refine ⟨m.take i, m.drop (i + 1), ?_, by rw [List.length_take]; omega⟩
  rw [← h, ← List.drop_eq_getElem_cons hi, List.take_append_drop]

/-- What a copy leaves behind: the copied bytes in their place, the others as they were. -/
theorem memcpy_getD {off : ℕ} {bs m : Bytes} (h : off ≤ m.length) (i : ℕ) :
    (memcpy off bs m).getD i 0 =
      if off ≤ i ∧ i < off + bs.length then bs.getD (i - off) 0 else m.getD i 0 := by
  unfold memcpy
  rw [List.append_assoc, List.getD_eq_getElem?_getD, List.getD_eq_getElem?_getD,
    List.getD_eq_getElem?_getD]
  have htake : (m.take off).length = off := by rw [List.length_take]; omega
  by_cases h1 : i < off
  · rw [List.getElem?_append_left (by omega), List.getElem?_take_of_lt h1, if_neg (by omega)]
  · rw [List.getElem?_append_right (by omega), htake]
    by_cases h2 : i < off + bs.length
    · rw [List.getElem?_append_left (by omega), if_pos ⟨by omega, h2⟩]
    · rw [List.getElem?_append_right (by omega), List.getElem?_drop, if_neg (by omega)]
      congr 2
      omega

@[simp] theorem memcpy_length {off : ℕ} {bs m : Bytes} (h : off + bs.length ≤ m.length) :
    (memcpy off bs m).length = m.length := by
  simp [memcpy]
  omega

/-- Copies into a zeroed buffer, one behind the other, put the parts together. -/
theorem memcpy_zeros {off n : ℕ} {a bs : Bytes} (ha : a.length = off) (hbs : bs.length = n) (k : ℕ) :
    memcpy off bs (a ++ zeros (n + k)) = a ++ bs ++ zeros k := by
  subst ha hbs
  unfold memcpy zeros
  rw [List.take_left, List.drop_append, List.drop_of_length_le (by omega), List.nil_append,
    List.drop_replicate, Nat.add_sub_cancel_left, Nat.add_sub_cancel_left]

theorem toList_getD {n : ℕ} (v : Chars n) (i : Fin n) : v.toList.getD i 0 = v.get i := by
  rw [List.getD_eq_getElem?_getD, List.getElem?_eq_getElem (by simp), List.Vector.get_eq_get_toList]
  rfl

/-- A window shows what stands in the memory. -/
theorem window_getD {off n i : ℕ} {m : Bytes} (hi : i < n) :
    (window off n m).toList.getD i 0 = m.getD (off + i) 0 := by
  rw [toList_getD (window off n m) ⟨i, hi⟩, window_get]

theorem mem_window {off n : ℕ} {m : Bytes} {b : UInt8} :
    b ∈ (window off n m).toList ↔ ∃ i < n, m.getD (off + i) 0 = b := by
  rw [List.mem_iff_getElem]
  constructor
  · rintro ⟨i, hi, rfl⟩
    have hn : i < n := by simpa using hi
    refine ⟨i, hn, ?_⟩
    rw [← window_getD hn, List.getD_eq_getElem _ _ hi]
  · rintro ⟨i, hi, rfl⟩
    have hlen : i < (window off n m).toList.length := by simpa using hi
    exact ⟨i, hlen, by rw [← window_getD hi, List.getD_eq_getElem _ _ hlen]⟩

/-- A window on the bytes of an array is that array. -/
theorem window_memcpy {off n : ℕ} {v : Chars n} {m : Bytes} (h : off ≤ m.length) :
    window off n (memcpy off v.toList m) = v := by
  refine List.Vector.ext fun i => ?_
  have hi := i.isLt
  rw [window_get, memcpy_getD h, if_pos ⟨by omega, by simp⟩, Nat.add_sub_cancel_left]
  exact toList_getD v i

/-- A window next to a copy shows what was there before. -/
theorem window_memcpy_ne {off off' n : ℕ} {bs m : Bytes} (h : off ≤ m.length)
    (hd : off' + n ≤ off ∨ off + bs.length ≤ off') :
    window off' n (memcpy off bs m) = window off' n m := by
  rw [window_eq_iff]
  intro i hi
  rw [memcpy_getD h, if_neg (by omega)]

/-- A window at the front of a shorter memory shows it zero-filled. -/
theorem window_toList {n : ℕ} {m : Bytes} (h : m.length ≤ n) : (window 0 n m).toList = fill n m := by
  apply List.ext_getElem
  · rw [fill_length h]
    simp
  · intro i h1 h2
    have hi : i < n := by simpa using h1
    have hg := toList_getD (window 0 n m) ⟨i, hi⟩
    rw [window_get, Nat.zero_add, ← fill_getD n m i] at hg
    simp only [List.getD_eq_getElem?_getD, List.getElem?_eq_getElem h1, List.getElem?_eq_getElem h2,
      Option.getD_some] at hg
    exact hg

/-- `strncpy` cuts the string and fills the array up. -/
theorem strncpy_toList (n : ℕ) (src : Bytes) :
    (strncpy n src).toList = fill (n + 1) ((cstr src).take n) := by
  have hlen : ((cstr src).take n).length ≤ n := List.length_take_le _ _
  exact window_toList (by omega)

/-- `strncpy` into an array and reading it back as a C string cuts the string. -/
theorem cstr_strncpy {n : ℕ} {src : Bytes} (h : 0 ∉ src) : cstr (strncpy n src).toList = src.take n := by
  rw [strncpy_toList, cstr_of_no_nul h]
  unfold fill
  rw [cstr_append_zeros, cstr_of_no_nul fun h0 => h (List.mem_of_mem_take h0)]

end SocketAcl
