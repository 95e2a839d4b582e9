import SocketAcl.Spec.UserStore
import Mathlib.Tactic.SplitIfs

/-!
# A user is not loaded as it was stored

`stored_not_loaded`: **no user that is stored is loaded again.** The document of `set_json_data`
holds the name as a JSON string (`parse_buildJson`), and the reply to `JSON.GET` is a text of that
string, with its quotes (`Json.str_shorter`). `json_to_user` takes the text for the name.
-/

namespace SocketAcl

/-! ## The document that is stored -/

variable {s rest : Bytes} {fuel : ℕ}

/-- An escaped byte is read as the byte, if it is read. -/
theorem char_escape {b : UInt8} {r : Bytes × Bytes} (h : Json.char (jsonEscapeByte b ++ rest) = some r) :
    r = ([b], rest) := by
  unfold jsonEscapeByte at h
  split_ifs at h with hquote h8 h12 h10 h13 h9
  · rcases hquote with rfl | rfl
    · exact (Option.some.inj h).symm
    · exact (Option.some.inj h).symm
  · subst h8
    exact (Option.some.inj h).symm
  · subst h12
    exact (Option.some.inj h).symm
  · subst h10
    exact (Option.some.inj h).symm
  · subst h13
    exact (Option.some.inj h).symm
  · subst h9
    exact (Option.some.inj h).symm
  · rw [List.singleton_append] at h
    unfold Json.char at h
    split at h
    · rename_i hb
      exact absurd (.inr (List.cons.inj hb).1) hquote
    · rename_i hb
      exact absurd (.inr (List.cons.inj hb).1) hquote
    · rename_i hb
      obtain ⟨rfl, rfl⟩ := List.cons.inj hb
      split_ifs at h
      exact (Option.some.inj h).symm
    · cases h

/-- No escaped byte begins with a quote. -/
theorem escape_ne_quote (b : UInt8) (t : Bytes) : jsonEscapeByte b ++ rest ≠ 0x22 :: t := by
  unfold jsonEscapeByte
  intro h
  split_ifs at h with hquote
  all_goals first
    | exact absurd (List.cons.inj h).1 (by decide)
    | exact hquote (.inl (List.cons.inj h).1)

/-- The escaped bytes of a string are read as the string. -/
theorem chars_escape {r : Bytes × Bytes} (h : Json.chars fuel (s.flatMap jsonEscapeByte ++ 0x22 :: rest) = some r) :
    r = (s, rest) := by
  induction s generalizing fuel r with
  | nil =>
    cases fuel with
    | zero => cases h
    | succ fuel => exact (Option.some.inj h).symm
  | cons b s ih =>
    cases fuel with
    | zero => cases h
    | succ fuel =>
      rw [List.flatMap_cons, List.append_assoc] at h
      unfold Json.chars at h
      split at h
      · rename_i hb
        exact absurd hb (escape_ne_quote _ _)
      · obtain ⟨c, hc, h⟩ := Option.bind_eq_some_iff.1 h
        obtain ⟨r', hr', h⟩ := Option.bind_eq_some_iff.1 h
        rw [char_escape hc] at hr' h
        rw [ih hr'] at h
        exact (Option.some.inj h).symm

/-- A quoted text is a value, and no space is in front of it. -/
theorem value_escape {r : Json × Bytes} (h : Json.value fuel (jsonEscape s ++ rest) = some r) :
    r = (.str s, rest) := by
  cases fuel with
  | zero => cases h
  | succ fuel =>
    have hskip : Json.skip (jsonEscape s ++ rest) = 0x22 :: (s.flatMap jsonEscapeByte ++ 0x22 :: rest) := by
      simp [jsonEscape, Json.skip]
    unfold Json.value at h
    rw [hskip] at h
    obtain ⟨r', hr', rfl⟩ := Option.map_eq_some_iff.1 h
    rw [chars_escape hr']

/-- A decimal number has digits only; the first is no `0` unless the number is zero. -/
theorem decimal_digits (n : ℕ) : ∀ b ∈ decimal n, Json.isDigit b := by
  intro b hb
  obtain ⟨c, hc, rfl⟩ := List.mem_map.1 hb
  have hdigit := Nat.isDigit_of_mem_toDigits (by decide) (by decide) hc
  simp only [Char.isDigit, Bool.and_eq_true, decide_eq_true_eq] at hdigit
  have hlow : 48 ≤ c.toNat := UInt32.le_iff_toNat_le.1 hdigit.1
  have hhigh : c.toNat ≤ 57 := UInt32.le_iff_toNat_le.1 hdigit.2
  have hbyte : (UInt8.ofNat c.toNat).toNat = c.toNat := by
    rw [UInt8.toNat_ofNat']
    exact Nat.mod_eq_of_lt (by omega)
  simp only [Json.isDigit, Bool.and_eq_true, decide_eq_true_eq, UInt8.le_iff_toNat_le, hbyte]
  exact ⟨hlow, hhigh⟩

theorem decimal_head {n : ℕ} (hn : n ≠ 0) : ∃ b t, decimal n = b :: t ∧ b ≠ 0x30 := by
  induction n using Nat.strongRecOn with
  | ind n ih =>
    by_cases hlt : n < 10
    · have hdigit : ∀ n < 10, n ≠ 0 → UInt8.ofNat n.digitChar.toNat ≠ 0x30 := by decide
      rw [decimal, Nat.toDigits_of_lt_base hlt]
      exact ⟨_, _, rfl, hdigit n hlt hn⟩
    · have hstep : decimal n = decimal (n / 10) ++ [UInt8.ofNat (Nat.digitChar (n % 10)).toNat] := by
        rw [decimal, Nat.toDigits_of_base_le (by decide) (by omega), List.map_append]
        rfl
      obtain ⟨b, t, h, hb⟩ := ih (n / 10) (by omega) (by omega)
      exact ⟨b, _, by rw [hstep, h]; rfl, hb⟩

/-- Digits are read up to what is no digit. -/
theorem digits_append {b : UInt8} (hs : ∀ b ∈ s, Json.isDigit b) (hnil : s ≠ []) (hb : Json.isDigit b = false) :
    Json.digits (s ++ b :: rest) = some (s, b :: rest) := by
  have htake : (s ++ b :: rest).takeWhile Json.isDigit = s := by
    rw [List.takeWhile_append_of_pos hs, List.takeWhile_cons_of_neg (by simp [hb]), List.append_nil]
  have hdrop : (s ++ b :: rest).dropWhile Json.isDigit = b :: rest := by
    rw [List.dropWhile_append_of_pos hs, List.dropWhile_cons_of_neg (by simp [hb])]
  unfold Json.digits
  rw [List.span_eq_takeWhile_dropWhile, htake, hdrop]
  split
  · rename_i h
    exact absurd (Prod.mk.inj h).1 hnil
  · rfl

theorem whole_decimal (n : ℕ) : Json.whole (decimal n ++ 0x2C :: rest) = some (decimal n, 0x2C :: rest) := by
  by_cases hn : n = 0
  · rw [hn]
    rfl
  · obtain ⟨b, t, h, hb⟩ := decimal_head hn
    have hnil : decimal n ≠ [] := by
      rw [h]
      exact List.cons_ne_nil b t
    have hdigits : Json.digits (decimal n ++ 0x2C :: rest) = some (decimal n, 0x2C :: rest) :=
      digits_append (decimal_digits n) hnil rfl
    rw [← hdigits]
    unfold Json.whole
    split
    · rename_i t' ht
      rw [h] at ht
      exact absurd (List.cons.inj ht).1 hb
    · rfl

/-- A sign and an integer part are read as they are written, where neither a fraction nor an exponent follows. -/
theorem number_whole {t n : Bytes} (hn : Json.whole t = some (n, rest)) (ht : t.takeWhile (fun b => b = 0x2D) = [])
    (hfraction : Json.fraction rest = some ([], rest)) (hexponent : Json.exponent rest = some ([], rest)) (sign : Bytes)
    (hsign : ∀ b ∈ sign, b = 0x2D) (hlen : sign.length ≤ 1) : Json.number (sign ++ t) = some (sign ++ n, rest) := by
  have htake : (sign ++ t).takeWhile (fun b => b = 0x2D) = sign := by
    rw [List.takeWhile_append_of_pos (by simpa using hsign), ht, List.append_nil]
  unfold Json.number
  simp only [htake, List.drop_left]
  rw [if_neg (Nat.not_lt.2 hlen), hn]
  simp [hfraction, hexponent]

/-- A number in front of a comma is read as it is written. -/
theorem number_decimalInt (n : ℤ) :
    Json.number (decimalInt n ++ 0x2C :: rest) = some (decimalInt n, 0x2C :: rest) := by
  have hdigit : ∀ m, ∃ b t, decimal m = b :: t ∧ b ≠ 0x2D := by
    intro m
    by_cases hm : m = 0
    · exact ⟨_, _, by rw [hm]; rfl, by decide⟩
    · obtain ⟨b, t, h, -⟩ := decimal_head hm
      refine ⟨b, t, h, ?_⟩
      rintro rfl
      exact absurd (decimal_digits m _ (h ▸ List.mem_cons_self)) (by decide)
  obtain ⟨b, t, ht, hb⟩ := hdigit n.natAbs
  have hplain : (decimal n.natAbs ++ 0x2C :: rest).takeWhile (fun b => b = 0x2D) = [] := by
    rw [ht, List.cons_append, List.takeWhile_cons_of_neg (by simpa using hb)]
  have hexponent : Json.exponent (0x2C :: rest) = some ([], 0x2C :: rest) := by cases rest <;> rfl
  have hwhole := number_whole (whole_decimal n.natAbs) hplain rfl hexponent
  unfold decimalInt
  split_ifs with hneg
  · exact hwhole [0x2D] (by simp) le_rfl
  · exact hwhole [] (by simp) (Nat.zero_le 1)

/-- The first byte of a number is a digit or a minus. -/
theorem decimalInt_head (n : ℤ) : ∃ b t, decimalInt n = b :: t ∧ (Json.isDigit b ∨ b = 0x2D) := by
  unfold decimalInt
  split_ifs
  · exact ⟨_, _, rfl, .inr rfl⟩
  · cases h : decimal n.natAbs with
    | nil =>
      have hlen := Nat.length_toDigits_pos (b := 10) (n := n.natAbs)
      rw [decimal, List.map_eq_nil_iff] at h
      rw [h] at hlen
      exact absurd hlen (Nat.lt_irrefl 0)
    | cons b t => exact ⟨b, t, rfl, .inl (decimal_digits _ b (h ▸ List.mem_cons_self))⟩

theorem value_decimalInt {n : ℤ} {r : Json × Bytes}
    (h : Json.value fuel (decimalInt n ++ 0x2C :: rest) = some r) : r = (.num (decimalInt n), 0x2C :: rest) := by
  cases fuel with
  | zero => cases h
  | succ fuel =>
    obtain ⟨b, t, hb, hfirst⟩ := decimalInt_head n
    have hfirst' : ∀ c ∈ [32, 9, 10, 13, 0x22, 0x5B, 0x7B, 0x6E, 0x74, 0x66], ¬(Json.isDigit c ∨ c = 0x2D) := by
      decide +kernel
    have hother : ∀ c ∈ [32, 9, 10, 13, 0x22, 0x5B, 0x7B, 0x6E, 0x74, 0x66], b ≠ c := fun c hc hbc =>
      hfirst' c hc (hbc ▸ hfirst)
    have hskip : Json.skip (decimalInt n ++ 0x2C :: rest) = decimalInt n ++ 0x2C :: rest := by
      rw [hb, Json.skip, List.cons_append, List.dropWhile_cons_of_neg]
      have h32 := hother 32 (by decide)
      have h9 := hother 9 (by decide)
      have h10 := hother 10 (by decide)
      have h13 := hother 13 (by decide)
      simp [h32, h9, h10, h13]
    unfold Json.value at h
    rw [hskip] at h
    split at h
    case h_7 =>
      rw [number_decimalInt] at h
      exact (Option.some.inj h).symm
    all_goals
      rename_i ht
      rw [hb] at ht
      exact absurd (List.cons.inj ht).1 (hother _ (by decide))

/-! ## Members -/

/-- `text`, with `rest` behind it, is read as `v` alone. -/
def Spells (text rest : Bytes) (v : Json) : Prop :=
  ∀ fuel r, Json.value fuel (text ++ rest) = some r → r = (v, rest)

variable {tag text : Bytes} {v : Json} {r : List (Bytes × Json) × Bytes}

/-- A member with others behind it. -/
theorem members_comma (hv : Spells text (0x2C :: rest) v)
    (h : Json.members fuel (jsonEscape tag ++ 0x3A :: (text ++ 0x2C :: rest)) = some r) :
    ∃ fuel r', Json.members fuel rest = some r' ∧ r = ((tag, v) :: r'.1, r'.2) := by
  cases fuel with
  | zero => cases h
  | succ fuel =>
    have hskip : Json.skip (jsonEscape tag ++ 0x3A :: (text ++ 0x2C :: rest)) =
        0x22 :: (tag.flatMap jsonEscapeByte ++ 0x22 :: 0x3A :: (text ++ 0x2C :: rest)) := by
      simp [jsonEscape, Json.skip]
    unfold Json.members at h
    rw [hskip] at h
    obtain ⟨c, hc, h⟩ := Option.bind_eq_some_iff.1 h
    rw [chars_escape hc] at h
    obtain ⟨r', hr', h⟩ := Option.bind_eq_some_iff.1 h
    rw [hv _ _ hr'] at h
    obtain ⟨r'', hr'', h⟩ := Option.map_eq_some_iff.1 h
    exact ⟨fuel, r'', hr'', h.symm⟩

/-- The last member. -/
theorem members_brace (hv : Spells text (0x7D :: rest) v)
    (h : Json.members fuel (jsonEscape tag ++ 0x3A :: (text ++ 0x7D :: rest)) = some r) :
    r = ([(tag, v)], rest) := by
  cases fuel with
  | zero => cases h
  | succ fuel =>
    have hskip : Json.skip (jsonEscape tag ++ 0x3A :: (text ++ 0x7D :: rest)) =
        0x22 :: (tag.flatMap jsonEscapeByte ++ 0x22 :: 0x3A :: (text ++ 0x7D :: rest)) := by
      simp [jsonEscape, Json.skip]
    unfold Json.members at h
    rw [hskip] at h
    obtain ⟨c, hc, h⟩ := Option.bind_eq_some_iff.1 h
    rw [chars_escape hc] at h
    obtain ⟨r', hr', h⟩ := Option.bind_eq_some_iff.1 h
    rw [hv _ _ hr'] at h
    exact (Option.some.inj h).symm

/-- The value of a user's document. -/
def userValue (user : User) : Json :=
  .obj [(ascii "name", .str (cstr user.name)), (ascii "age", .num (decimalInt user.age.toInt)),
    (ascii "email", .str (cstr user.email))]

theorem buildJson_user (user : User) : buildJson (userToJson user) =
    0x7B :: (jsonEscape (ascii "name") ++ 0x3A :: (jsonEscape (cstr user.name) ++ 0x2C ::
      (jsonEscape (ascii "age") ++ 0x3A :: (decimalInt user.age.toInt ++ 0x2C ::
        (jsonEscape (ascii "email") ++ 0x3A :: (jsonEscape (cstr user.email) ++ 0x7D :: [])))))) := by
  simp [buildJson, userToJson, JsonNode.build, List.intercalate]

/-- **The text of a user's document is read as the document**, if it is valid. -/
theorem parse_buildJson {user : User} {v : Json} (h : Json.parse (buildJson (userToJson user)) = some v) :
    v = userValue user := by
  rw [buildJson_user] at h
  obtain ⟨r, hr, h⟩ := Option.bind_eq_some_iff.1 h
  unfold Json.value at hr
  have hbrace : ∀ t : Bytes, Json.skip (0x7B :: t) = 0x7B :: t := fun t => by simp [Json.skip]
  have hquote : ∀ t : Bytes, Json.skip (jsonEscape (ascii "name") ++ t) = jsonEscape (ascii "name") ++ t := fun t => by
    simp [Json.skip, jsonEscape]
  rw [hbrace] at hr
  simp only [hquote] at hr
  obtain ⟨r1, hr1, hr⟩ := Option.map_eq_some_iff.1 hr
  obtain ⟨_, r2, hr2, h1⟩ := members_comma (fun _ _ => value_escape) hr1
  obtain ⟨_, r3, hr3, h2⟩ := members_comma (fun _ _ => value_decimalInt) hr2
  have h3 := members_brace (fun _ _ => value_escape) hr3
  rw [h3] at h2
  rw [h2] at h1
  rw [← hr, h1] at h
  exact (Option.some.inj h).symm

/-! ## Calls -/

/-- A call that returns went through each of its parts. -/
theorem RedisCall.bind_ok {σ α β : Type} {x : RedisCall σ α} {f : α → RedisCall σ β} {b : β} {s s' : σ}
    (h : (x >>= f) s = (.ok b, s')) : ∃ a s1, x s = (.ok a, s1) ∧ f a s1 = (.ok b, s') := by
  simp only [bind, ExceptT.bind, ExceptT.mk, StateT.bind] at h
  cases hx : x s with
  | mk result s1 =>
    rw [hx] at h
    cases result with
    | error e => cases h
    | ok a => exact ⟨a, s1, rfl, h⟩

theorem RedisCall.bind_of_ok {σ α β : Type} {x : RedisCall σ α} {f : α → RedisCall σ β} {a : α} {s s' : σ}
    (h : x s = (.ok a, s')) : (x >>= f) s = f a s' := by
  simp only [bind, ExceptT.bind, ExceptT.mk, StateT.bind]
  rw [h]
  rfl

variable {client : RedisClient} {key field text : Bytes} {others : ℕ → client.State → client.State}
  {user user' : User} {s s' : client.State} {reply : Option RedisResult}

/-- What `get_json_field` makes of a reply. -/
def fieldOf : Option RedisResult → Except Failure Bytes
  | none => .error (.runtimeError (ascii "Failed to retrieve JSON field from Redis"))
  | some result =>
    if result.type ≠ .string then .error (.runtimeError (ascii "Failed to retrieve JSON field from Redis"))
    else
      match result.get with
      | none => .error .nullString
      | some text => .ok (cstr text)

theorem getJsonField_eq : getJsonField client key field s =
    (fieldOf (client.request [ascii "JSON.GET", key, field] s).1,
      (client.request [ascii "JSON.GET", key, field] s).2) := by
  have hlift : (ExceptT.lift (client.request [ascii "JSON.GET", key, field]) : RedisCall _ _) s =
      (.ok (client.request [ascii "JSON.GET", key, field] s).1,
        (client.request [ascii "JSON.GET", key, field] s).2) := rfl
  unfold getJsonField
  rw [RedisCall.bind_of_ok hlift]
  cases (client.request [ascii "JSON.GET", key, field] s).1 with
  | none => rfl
  | some result =>
    simp only [fieldOf]
    split_ifs
    · rfl
    · cases result.get <;> rfl

/-- The text of a field in a reply: the data of a bulk string. -/
def bulkText (reply : Option RedisResult) : Option Bytes :=
  reply.bind fun result => if result.type = .string then result.get else none

/-- A text is returned for the text of a field. -/
theorem fieldOf_ok_iff : fieldOf reply = .ok text ↔ ∃ data, bulkText reply = some data ∧ cstr data = text := by
  cases reply with
  | none => simp [fieldOf, bulkText]
  | some result =>
    by_cases htype : result.type = .string
    · cases hget : result.get <;> simp [fieldOf, bulkText, htype, hget]
    · simp [fieldOf, bulkText, htype]

theorem bulkText_eq_some {data : Bytes} (h : bulkText reply = some data) :
    ∃ result, reply = some result ∧ result.type = .string ∧ result.get = some data := by
  obtain ⟨result, rfl, hresult⟩ := Option.bind_eq_some_iff.1 h
  split_ifs at hresult with htype
  exact ⟨result, rfl, htype, hresult⟩

/-- A user that is returned has the texts of its fields, each as it was when it was asked for. -/
theorem jsonToUser_ok (h : jsonToUser client others key s = (.ok user, s')) :
    ∃ s1 s2 age, getJsonField client key (ascii "name") (others 0 s) = (.ok user.name, s1) ∧
      getJsonField client key (ascii "age") (others 1 s1) = (.ok age, s2) ∧ stoi age = .ok user.age ∧
      getJsonField client key (ascii "email") (others 2 s2) = (.ok user.email, s') := by
  obtain ⟨_, _, h0, h⟩ := RedisCall.bind_ok h
  obtain ⟨-, rfl⟩ := Prod.mk.inj h0
  obtain ⟨name, s1, hname, h⟩ := RedisCall.bind_ok h
  obtain ⟨_, _, h1, h⟩ := RedisCall.bind_ok h
  obtain ⟨-, rfl⟩ := Prod.mk.inj h1
  obtain ⟨text, s2, hage, h⟩ := RedisCall.bind_ok h
  obtain ⟨age, s2', hread, h⟩ := RedisCall.bind_ok h
  obtain ⟨hstoi, rfl⟩ : stoi text = .ok age ∧ s2 = s2' := Prod.mk.inj hread
  obtain ⟨_, _, h2, h⟩ := RedisCall.bind_ok h
  obtain ⟨-, rfl⟩ := Prod.mk.inj h2
  obtain ⟨email, s3, hemail, h⟩ := RedisCall.bind_ok h
  obtain ⟨huser, rfl⟩ := Prod.mk.inj h
  obtain rfl := Except.ok.inj huser
  exact ⟨s1, s2, text, hname, hage, hstoi, hemail⟩

variable {document : client.State → Bytes → Option Json}

/-- The text is one of a field of the document, as `get_json_field` returns it. -/
def FieldOf (doc : Option Json) (field text : Bytes) : Prop :=
  ∃ data value, text = cstr data ∧ doc.bind (Json.field field) = some value ∧ Json.parse data = some value

theorem FieldOf.no_nul {doc : Option Json} (h : FieldOf doc field text) : 0 ∉ text := by
  obtain ⟨data, -, rfl, -, -⟩ := h
  exact cstr_no_nul data

/-- A string field is returned with its quotes. -/
theorem FieldOf.longer {doc : Option Json} {str : Bytes} (h : FieldOf doc field text)
    (hdoc : doc.bind (Json.field field) = some (.str str)) : str.length + 2 ≤ text.length := by
  obtain ⟨data, value, rfl, hvalue, hparse⟩ := h
  rw [hdoc] at hvalue
  obtain rfl := Option.some.inj hvalue
  obtain ⟨hlen, h0⟩ := Json.str_shorter hparse
  rw [cstr_of_no_nul h0]
  exact hlen

/-- The document behind a field that is returned. -/
theorem StoresJson.field_ok (hR : StoresJson client document) (hfield : ∀ b ∈ field, 0x61 ≤ b ∧ b ≤ 0x7A)
    (h : getJsonField client key field s = (.ok text, s')) :
    document s' = document s ∧ FieldOf (document s key) field text := by
  rw [getJsonField_eq] at h
  obtain ⟨hreply, rfl⟩ := Prod.mk.inj h
  obtain ⟨data, hbulk, rfl⟩ := fieldOf_ok_iff.1 hreply
  obtain ⟨result, hresult, htype, hdata⟩ := bulkText_eq_some hbulk
  obtain ⟨value, hvalue, hparse⟩ := hR.get s key field result data hfield hresult htype hdata
  exact ⟨hR.keep s key field, data, value, rfl, hvalue, hparse⟩

/-- What `set_json_data` stored when it returns true. -/
theorem StoresJson.stored (hR : StoresJson client document) (h : setJsonData client key user s = (true, s')) :
    document s' key = some (userValue user) := by
  cases hreq : client.request [ascii "JSON.SET", key, ascii "$", buildJson (userToJson user)] s with
  | mk reply s1 =>
    simp only [setJsonData, bind, StateT.bind, hreq] at h
    obtain ⟨hreply, rfl⟩ := Prod.mk.inj h
    cases reply with
    | none => cases hreply
    | some result =>
      have hset := hR.set s key user result
      simp only [hreq] at hset
      obtain ⟨hsome, hdoc⟩ := hset trivial (of_decide_eq_true hreply)
      obtain ⟨value, hvalue⟩ := Option.isSome_iff_exists.1 hsome
      rw [hvalue, parse_buildJson (hdoc.symm.trans hvalue)]

/-- **No user that is stored is loaded again**: its name comes back with the quotes of its JSON text. -/
theorem stored_not_loaded (hR : StoresJson client document)
    (hset : setJsonData client key user s = (true, s'))
    (hothers : ∀ i s, document (others i s) key = document s key) :
    (jsonToUser client others key s').1 ≠ .ok user := by
  intro hload
  have hpair : jsonToUser client others key s' = (.ok user, (jsonToUser client others key s').2) := Prod.ext hload rfl
  obtain ⟨s1, s2, age, hfield, -, -, -⟩ := jsonToUser_ok hpair
  -- what is loaded is a C string
  have hletters : ∀ b ∈ ascii "name", 0x61 ≤ b ∧ b ≤ 0x7A := by decide +kernel
  obtain ⟨-, hof⟩ := hR.field_ok hletters hfield
  have hname : 0 ∉ user.name := hof.no_nul
  have hdoc : (document (others 0 s') key).bind (Json.field (ascii "name")) = some (.str user.name) := by
    rw [hothers, hR.stored hset, userValue, cstr_of_no_nul hname]
    rfl
  have hlen := hof.longer hdoc
  omega

/-! ## Documents in memory -/

/-- A text of a string or a number that reads back as it. -/
def spell : Json → Option Bytes
  | .str s => if (Json.parse (jsonEscape s)).isSome then some (jsonEscape s) else none
  | .num literal =>
    match Json.parse literal with
    | some (.num literal') => if literal' = literal then some literal else none
    | _ => none
  | _ => none

theorem parse_spell {v : Json} (h : spell v = some text) : Json.parse text = some v := by
  cases v with
  | str s =>
    simp only [spell] at h
    split_ifs at h with hsome
    obtain rfl := Option.some.inj h
    obtain ⟨v, hv⟩ := Option.isSome_iff_exists.1 hsome
    have hval := hv
    unfold Json.parse at hval
    obtain ⟨r, hr, hr'⟩ := Option.bind_eq_some_iff.1 hval
    rw [← List.append_nil (jsonEscape s)] at hr
    rw [value_escape hr] at hr'
    rw [hv, ← Option.some.inj hr']
  | num literal =>
    simp only [spell] at h
    split at h
    · rename_i hlit
      split_ifs at h with heq
      obtain rfl := Option.some.inj h
      rw [hlit, heq]
    · cases h
  | _ => cases h

/-- A Redis that holds documents in memory. -/
def memoryClient : RedisClient where
  State := Bytes → Option Json
  request
    | [cmd, key, path], s =>
      if cmd ≠ ascii "JSON.GET" then (some ⟨.error, none⟩, s)
      else
        match s key with
        | none => (some ⟨.string, none⟩, s)
        | some v =>
          match (v.field path).bind spell with
          | none => (some ⟨.error, none⟩, s)
          | some text => (some ⟨.string, some text⟩, s)
    | [_, key, _, text], s =>
      match Json.parse text with
      | none => (some ⟨.error, none⟩, s)
      | some v => (some ⟨.status, some (ascii "OK")⟩, Function.update s key (some v))
    | _, s => (some ⟨.error, none⟩, s)

theorem memoryClient_stores : StoresJson memoryClient fun s => s where
  set := by
    intro s key user result request hreq htype
    change (match Json.parse (buildJson (userToJson user)) with
      | none => ((some ⟨.error, none⟩, s) : Option RedisResult × (Bytes → Option Json))
      | some v => (some ⟨.status, some (ascii "OK")⟩, Function.update s key (some v))).1 = some result at hreq
    split at hreq
    · obtain rfl := Option.some.inj hreq
      cases htype
    · rename_i v hv
      have hstored : request.2 key = some v := by
        simp only [request, memoryClient, hv]
        exact Function.update_self ..
      rw [hstored, hv]
      exact ⟨rfl, rfl⟩
  keep := by
    intro s key path
    simp only [memoryClient]
    split_ifs
    · rfl
    · split
      · rfl
      · split <;> rfl
  get := by
    intro s key path result text _ hreq htype hdata
    have hcmd : ¬ascii "JSON.GET" ≠ ascii "JSON.GET" := fun h => h rfl
    simp only [memoryClient, if_neg hcmd] at hreq
    split at hreq
    · obtain rfl := Option.some.inj hreq
      cases hdata
    · rename_i v hv
      split at hreq
      · obtain rfl := Option.some.inj hreq
        cases htype
      · rename_i spelled hspell
        obtain rfl := Option.some.inj hreq
        obtain rfl := Option.some.inj hdata
        obtain ⟨value, hvalue, hspell⟩ := Option.bind_eq_some_iff.1 hspell
        exact ⟨value, by rw [hv]; exact hvalue, parse_spell hspell⟩

/-- The user "alice", thirty years old. -/
def alice : User := ⟨ascii "alice", 30, ascii "a@b.c"⟩

/-- Alice is stored and loaded with two quotes more. -/
theorem stored_not_loaded_alice :
    (jsonToUser memoryClient (fun _ s => s) (ascii "user:1")
      (setJsonData memoryClient (ascii "user:1") alice fun _ => none).2).1 ≠ .ok alice :=
  stored_not_loaded memoryClient_stores (Prod.ext (by decide +kernel) rfl) fun _ _ => rfl

/-- **The quotes**: what is loaded for the user "alice" is a user whose name begins with a quote. -/
theorem alice_quoted : StoresJson memoryClient (fun s => s) ∧
    (setJsonData memoryClient (ascii "user:1") alice fun _ => none).1 = true ∧
    (jsonToUser memoryClient (fun _ s => s) (ascii "user:1")
      (setJsonData memoryClient (ascii "user:1") alice fun _ => none).2).1 =
      .ok ⟨ascii "\"alice\"", 30, ascii "\"a@b.c\""⟩ :=
  ⟨memoryClient_stores, by decide +kernel, by decide +kernel⟩

end SocketAcl
