import SocketAcl.Spec.RedisHandler
import SocketAcl.Proof.UserStore

/-!
# How a load ends, and what it loads

`json_to_user` makes three requests, each where the one before it gave a text (`jsonToUser_fst`).

* `load_clean`: `handle_get_json` prints a user or catches an exception exactly if no nil is among
  the replies it gets to: a nil is a bulk string without data, and only the type is looked at.
* `loaded_in_order`: each field is one of the document stored when it was asked for; the three are of
  one document where no write falls between the first request and the last.
-/

namespace SocketAcl

variable {client : RedisClient} {key field : Bytes} {others : ℕ → client.State → client.State} {s : client.State}
  {reply : Option RedisResult} {text : Bytes}

/-! ## The three replies -/

/-- The result of a call behind another. -/
theorem RedisCall.bind_fst {σ α β : Type} (x : RedisCall σ α) (f : α → RedisCall σ β) (s : σ) :
    ((x >>= f) s).1 = (x s).1.bind fun a => (f a (x s).2).1 := by
  simp only [bind, ExceptT.bind, ExceptT.mk, StateT.bind]
  cases x s with
  | mk result s' => cases result <;> rfl

/-- The replies to the three requests, if all are made. -/
structure Replies where
  name : Option RedisResult
  age : Option RedisResult
  email : Option RedisResult

variable (client key others s) in
def replies3 : Replies :=
  let first := client.request [ascii "JSON.GET", key, ascii "name"] (others 0 s)
  let second := client.request [ascii "JSON.GET", key, ascii "age"] (others 1 first.2)
  let third := client.request [ascii "JSON.GET", key, ascii "email"] (others 2 second.2)
  ⟨first.1, second.1, third.1⟩

/-- What `json_to_user` makes of the replies. -/
def loadOf (replies : Replies) : Except Failure User := do
  let name ← fieldOf replies.name
  let age ← fieldOf replies.age
  let age ← stoi age
  let email ← fieldOf replies.email
  return { name := name, age := age, email := email }

theorem jsonToUser_fst : (jsonToUser client others key s).1 = loadOf (replies3 client key others s) := by
  unfold jsonToUser
  simp only [RedisCall.bind_fst, getJsonField_eq]
  rfl

/-! ## How it ends -/

/-- A nil: a bulk string without data. -/
def IsNil (reply : Option RedisResult) : Prop := ∃ result, reply = some result ∧ result.type = .string ∧ result.get = none

/-- A string is built from a null pointer for a nil. -/
theorem fieldOf_nullString_iff : fieldOf reply = .error .nullString ↔ IsNil reply := by
  cases reply with
  | none => simp [fieldOf, IsNil]
  | some result =>
    by_cases htype : result.type = .string
    · cases hget : result.get <;> simp [fieldOf, IsNil, htype, hget]
    · simp [fieldOf, IsNil, htype]

/-- **`get_json_field` throws** where it has no text to return, but for a nil. -/
theorem getJsonField_throws (hnil : ¬ IsNil (client.request [ascii "JSON.GET", key, field] s).1)
    (htext : bulkText (client.request [ascii "JSON.GET", key, field] s).1 = none) :
    ∃ e, e ≠ .nullString ∧ (getJsonField client key field s).1 = .error e := by
  rw [getJsonField_eq]
  cases h : fieldOf (client.request [ascii "JSON.GET", key, field] s).1 with
  | error e =>
    have hne : e ≠ .nullString := by
      rintro rfl
      exact hnil (fieldOf_nullString_iff.1 h)
    exact ⟨e, hne, rfl⟩
  | ok text =>
    obtain ⟨data, hdata, -⟩ := fieldOf_ok_iff.1 h
    rw [htext] at hdata
    cases hdata

theorem bind_eq_ok {α β : Type} {x : Except Failure α} {f : α → Except Failure β} {b : β} :
    x >>= f = .ok b ↔ ∃ a, x = .ok a ∧ f a = .ok b := by
  cases x <;> simp [bind, Except.bind]

theorem bind_eq_error {α β : Type} {x : Except Failure α} {f : α → Except Failure β} {e : Failure} :
    x >>= f = .error e ↔ x = .error e ∨ ∃ a, x = .ok a ∧ f a = .error e := by
  cases x <;> simp [bind, Except.bind]

theorem stoi_ne_nullString (str : Bytes) : stoi str ≠ .error .nullString := by
  unfold stoi
  simp only
  split_ifs <;> nofun

/-- What `handle_get_json` does with the end of a load. -/
def shownOf : Except Failure User → Shown
  | .ok user => .user user
  | .error .nullString => .undefined
  | .error e => .caught e

theorem handleGetJson_fst : (handleGetJson client others key s).1 = shownOf (jsonToUser client others key s).1 := by
  unfold handleGetJson
  simp only [bind, StateT.bind, ExceptT.run]
  cases jsonToUser client others key s with
  | mk result s' =>
    cases result with
    | ok user => rfl
    | error e => cases e <;> rfl

/-- **A clean load**: the user of the three fields is printed, or an exception of `json_to_user` is caught. -/
def LoadsCleanly (replies : Replies) (shown : Shown) : Prop :=
  (∃ name age n email, bulkText replies.name = some name ∧ bulkText replies.age = some age ∧
    stoi (cstr age) = .ok n ∧ bulkText replies.email = some email ∧ shown = .user ⟨cstr name, n, cstr email⟩) ∨
  ∃ e, e ≠ .nullString ∧ shown = .caught e

/-- **No nil is reached**: none of the requests made is answered by a nil. The second is made if the first gives a
text, the third if the second gives a number. -/
structure NoNil (replies : Replies) : Prop where
  name : ¬ IsNil replies.name
  age : ∀ name, bulkText replies.name = some name → ¬ IsNil replies.age
  email : ∀ name age n, bulkText replies.name = some name → bulkText replies.age = some age →
    stoi (cstr age) = .ok n → ¬ IsNil replies.email

theorem shownOf_error {e : Failure} (h : e ≠ .nullString) : shownOf (.error e) = .caught e := by
  cases e with
  | nullString => exact absurd rfl h
  | _ => rfl

/-- A load builds no string from a null pointer exactly if it reaches no nil. -/
theorem loadOf_nullString_iff (replies : Replies) : loadOf replies ≠ .error .nullString ↔ NoNil replies := by
  have hpure : ∀ user : User, (pure user : Except Failure User) ≠ .error .nullString := fun _ => nofun
  simp only [loadOf, ne_eq, bind_eq_error, fieldOf_nullString_iff, hpure, stoi_ne_nullString, and_false, exists_false,
    or_false, false_or, not_or]
  constructor
  · rintro ⟨hname, hrest⟩
    refine ⟨hname, fun name hn hage => ?_, fun name age n hn ha hstoi hemail => ?_⟩
    · exact hrest ⟨_, fieldOf_ok_iff.2 ⟨name, hn, rfl⟩, .inl hage⟩
    · exact hrest ⟨_, fieldOf_ok_iff.2 ⟨name, hn, rfl⟩, .inr ⟨_, fieldOf_ok_iff.2 ⟨age, ha, rfl⟩, n, hstoi, hemail⟩⟩
  · intro h
    refine ⟨h.name, ?_⟩
    rintro ⟨_, hn, hrest⟩
    obtain ⟨name, hname, rfl⟩ := fieldOf_ok_iff.1 hn
    rcases hrest with hnil | ⟨_, ha, n, hstoi, hnil⟩
    · exact h.age name hname hnil
    · obtain ⟨age, hage, rfl⟩ := fieldOf_ok_iff.1 ha
      exact h.email name age n hname hage hstoi hnil

/-- A user that is loaded is made of the three fields. -/
theorem loadOf_ok {replies : Replies} {user : User} (h : loadOf replies = .ok user) :
    ∃ name age n email, bulkText replies.name = some name ∧ bulkText replies.age = some age ∧
      stoi (cstr age) = .ok n ∧ bulkText replies.email = some email ∧ user = ⟨cstr name, n, cstr email⟩ := by
  obtain ⟨_, h1, h⟩ := bind_eq_ok.1 h
  obtain ⟨_, h2, h⟩ := bind_eq_ok.1 h
  obtain ⟨n, hstoi, h⟩ := bind_eq_ok.1 h
  obtain ⟨_, h3, h⟩ := bind_eq_ok.1 h
  obtain ⟨name, hname, rfl⟩ := fieldOf_ok_iff.1 h1
  obtain ⟨age, hage, rfl⟩ := fieldOf_ok_iff.1 h2
  obtain ⟨email, hemail, rfl⟩ := fieldOf_ok_iff.1 h3
  exact ⟨name, age, n, email, hname, hage, hstoi, hemail, (Except.ok.inj h).symm⟩

/-- **A load is clean** exactly if no nil is reached, whatever Redis holds and whatever happens to it meanwhile. -/
theorem load_clean (client : RedisClient) (others : ℕ → client.State → client.State) (key : Bytes)
    (s : client.State) :
    LoadsCleanly (replies3 client key others s) (handleGetJson client others key s).1 ↔
      NoNil (replies3 client key others s) := by
  rw [handleGetJson_fst, jsonToUser_fst, ← loadOf_nullString_iff]
  generalize replies3 client key others s = replies
  cases h : loadOf replies with
  | ok user =>
    obtain ⟨name, age, n, email, hname, hage, hstoi, hemail, rfl⟩ := loadOf_ok h
    exact iff_of_true (.inl ⟨name, age, n, email, hname, hage, hstoi, hemail, rfl⟩) nofun
  | error e =>
    by_cases he : e = .nullString
    · subst he
      refine iff_of_false ?_ fun h => h rfl
      rintro (⟨_, _, _, _, -, -, -, -, h⟩ | ⟨e, -, h⟩) <;> cases h
    · exact iff_of_true (.inr ⟨e, he, shownOf_error he⟩) fun h => he (Except.error.inj h)

/-- **A key that holds nothing**: the reply is a nil, and `handle_get_json` neither prints nor catches. -/
theorem missing_key :
    (handleGetJson memoryClient (fun _ s => s) (ascii "user:1") fun _ => none).1 = .undefined ∧
    ¬ LoadsCleanly (replies3 memoryClient (ascii "user:1") (fun _ s => s) fun _ => none)
      (handleGetJson memoryClient (fun _ s => s) (ascii "user:1") fun _ => none).1 := by
  have hshown : (handleGetJson memoryClient (fun _ s => s) (ascii "user:1") fun _ => none).1 = .undefined := by
    decide +kernel
  refine ⟨hshown, ?_⟩
  rw [hshown]
  rintro (⟨_, _, _, _, -, -, -, -, h⟩ | ⟨e, -, h⟩) <;> cases h

/-! ## What it loads -/

section Versions

variable {document : client.State → Bytes → Option Json} {user : User} {writes : ℕ → List User}

/-- All three fields of the user are fields of this document. -/
structure LoadedFrom (doc : Option Json) (user : User) : Prop where
  name : FieldOf doc (ascii "name") user.name
  age : ∃ text, FieldOf doc (ascii "age") text ∧ stoi text = .ok user.age
  email : FieldOf doc (ascii "email") user.email

variable (client key) in
/-- Users that other clients write to the key, one after the other. -/
def written (users : List User) (s : client.State) : client.State :=
  users.foldl (fun s user => (setJsonData client key user s).2) s

variable (client key) in
/-- The states of Redis while these users are written. -/
def whileWritten (users : List User) (s : client.State) : List client.State :=
  users.inits.map fun users => written client key users s

variable (client key writes) in
/-- Where the three requests are made, if `writes i` is written in front of request `i`. -/
def askedName (s : client.State) : client.State := written client key (writes 0) s

variable (client key writes) in
def askedAge (s : client.State) : client.State :=
  written client key (writes 1)
    (client.request [ascii "JSON.GET", key, ascii "name"] (askedName client key writes s)).2

variable (client key writes) in
def askedEmail (s : client.State) : client.State :=
  written client key (writes 2)
    (client.request [ascii "JSON.GET", key, ascii "age"] (askedAge client key writes s)).2

variable (client key writes) in
/-- The states of Redis during the call, up to the last request. -/
def callStates (s : client.State) : List client.State :=
  whileWritten client key (writes 0) s ++
    (whileWritten client key (writes 1)
      (client.request [ascii "JSON.GET", key, ascii "name"] (askedName client key writes s)).2 ++
    whileWritten client key (writes 2)
      (client.request [ascii "JSON.GET", key, ascii "age"] (askedAge client key writes s)).2)

variable (client) in
/-- **An atomic load**: the user is that of one version of the key there was during the call. -/
def Atomic (document : client.State → Bytes → Option Json) (key : Bytes) (writes : ℕ → List User)
    (s : client.State) (user : User) : Prop :=
  ∃ s' ∈ callStates client key writes s, LoadedFrom (document s' key) user

theorem written_mem (users : List User) (s : client.State) :
    written client key users s ∈ whileWritten client key users s :=
  List.mem_map.2 ⟨users, (List.mem_inits _ _).2 List.prefix_rfl, rfl⟩

/-- The requests are made one after the other, in states of the call. -/
theorem asked_sublist (s : client.State) :
    [askedName client key writes s, askedAge client key writes s, askedEmail client key writes s].Sublist
      (callStates client key writes s) := by
  have hone : ∀ (users : List User) (s : client.State),
      [written client key users s].Sublist (whileWritten client key users s) :=
    fun users s => List.singleton_sublist.2 (written_mem users s)
  exact (hone _ _).append ((hone _ _).append (hone _ _))

/-- The document each field is one of. -/
theorem loaded_fields (hR : StoresJson client document)
    (h : (jsonToUser client (fun i => written client key (writes i)) key s).1 = .ok user) :
    FieldOf (document (askedName client key writes s) key) (ascii "name") user.name ∧
    (∃ text, FieldOf (document (askedAge client key writes s) key) (ascii "age") text ∧ stoi text = .ok user.age) ∧
    FieldOf (document (askedEmail client key writes s) key) (ascii "email") user.email := by
  have hpair : jsonToUser client (fun i => written client key (writes i)) key s =
      (.ok user, (jsonToUser client (fun i => written client key (writes i)) key s).2) := Prod.ext h rfl
  obtain ⟨s1, s2, text, hname, hage, hstoi, hemail⟩ := jsonToUser_ok hpair
  obtain rfl : _ = s1 := congrArg Prod.snd (getJsonField_eq.symm.trans hname)
  obtain rfl : _ = s2 := congrArg Prod.snd (getJsonField_eq.symm.trans hage)
  exact ⟨(hR.field_ok (by decide +kernel) hname).2, ⟨text, (hR.field_ok (by decide +kernel) hage).2, hstoi⟩,
    (hR.field_ok (by decide +kernel) hemail).2⟩

/-- **Versions in order.** Each field of a user that is loaded is one of the version of the key its request met, and
the three requests are made one after the other during the call. Where no write falls between the first request and
the last, the load is atomic. -/
theorem loaded_in_order (hR : StoresJson client document)
    (h : (jsonToUser client (fun i => written client key (writes i)) key s).1 = .ok user) :
    ∃ s0 s1 s2, [s0, s1, s2].Sublist (callStates client key writes s) ∧
      FieldOf (document s0 key) (ascii "name") user.name ∧
      (∃ text, FieldOf (document s1 key) (ascii "age") text ∧ stoi text = .ok user.age) ∧
      FieldOf (document s2 key) (ascii "email") user.email ∧
      (writes 1 = [] → writes 2 = [] → Atomic client document key writes s user) := by
  obtain ⟨hname, hage, hemail⟩ := loaded_fields hR h
  refine ⟨_, _, _, asked_sublist s, hname, hage, hemail, fun h1 h2 => ?_⟩
  have hsame1 : document (askedAge client key writes s) = document (askedName client key writes s) := by
    rw [askedAge, h1]
    exact hR.keep _ _ _
  have hsame2 : document (askedEmail client key writes s) = document (askedAge client key writes s) := by
    rw [askedEmail, h2]
    exact hR.keep _ _ _
  rw [hsame2, hsame1] at hemail
  rw [hsame1] at hage
  exact ⟨_, List.mem_append_left _ (written_mem _ _), hname, hage, hemail⟩

end Versions

/-- The user "alice" as she is stored. -/
def aliceStored : memoryClient.State := (setJsonData memoryClient (ascii "user:1") alice fun _ => none).2

/-- A user with a longer name and a shorter address. -/
def alexander : User := ⟨ascii "alexander", 41, ascii "x@y"⟩

/-- Alexander is written over alice behind the first request. -/
def overAlice (i : ℕ) : List User := if i = 1 then [alexander] else []

/-- What is loaded then. -/
theorem overAlice_load : (jsonToUser memoryClient (fun i => written memoryClient (ascii "user:1") (overAlice i))
    (ascii "user:1") aliceStored).1 = .ok ⟨ascii "\"alice\"", 41, ascii "\"x@y\""⟩ := by decide +kernel

/-- The name is one of a version in front of the age's and the address's. -/
theorem loaded_in_order_alice : ∃ s0 s1 s2,
    [s0, s1, s2].Sublist (callStates memoryClient (ascii "user:1") overAlice aliceStored) ∧
      FieldOf (s0 (ascii "user:1")) (ascii "name") (ascii "\"alice\"") ∧
      (∃ text, FieldOf (s1 (ascii "user:1")) (ascii "age") text ∧ stoi text = .ok 41) ∧
      FieldOf (s2 (ascii "user:1")) (ascii "email") (ascii "\"x@y\"") := by
  obtain ⟨s0, s1, s2, hsub, hname, hage, hemail, -⟩ := loaded_in_order memoryClient_stores overAlice_load
  exact ⟨s0, s1, s2, hsub, hname, hage, hemail⟩

/-- **A mixed user**: the name is Alice's, the age and the address are Alexander's, and neither version holds all
three. -/
theorem mixed_user :
    (jsonToUser memoryClient (fun i => written memoryClient (ascii "user:1") (overAlice i)) (ascii "user:1")
      aliceStored).1 = .ok ⟨ascii "\"alice\"", 41, ascii "\"x@y\""⟩ ∧
    ¬ Atomic memoryClient (fun s => s) (ascii "user:1") overAlice aliceStored
      ⟨ascii "\"alice\"", 41, ascii "\"x@y\""⟩ := by
  have hkeep : ∀ s path, (memoryClient.request [ascii "JSON.GET", ascii "user:1", path] s).2 = s :=
    fun s path => memoryClient_stores.keep s _ path
  have halice : aliceStored (ascii "user:1") = some (userValue alice) :=
    memoryClient_stores.stored (Prod.ext (by decide +kernel) rfl)
  have halexander : (setJsonData memoryClient (ascii "user:1") alexander aliceStored).2 (ascii "user:1") =
      some (userValue alexander) := memoryClient_stores.stored (Prod.ext (by decide +kernel) rfl)
  have hversions : ∀ s' ∈ callStates memoryClient (ascii "user:1") overAlice aliceStored,
      s' (ascii "user:1") = some (userValue alice) ∨ s' (ascii "user:1") = some (userValue alexander) := by
    intro s' hs'
    have hcases : s' = aliceStored ∨ s' = (setJsonData memoryClient (ascii "user:1") alexander aliceStored).2 := by
      simpa [callStates, whileWritten, askedName, askedAge, overAlice, hkeep, written] using hs'
    rcases hcases with rfl | rfl
    · exact .inl halice
    · exact .inr halexander
  refine ⟨overAlice_load, ?_⟩
  rintro ⟨s', hs', hname, -, hemail⟩
  have hname : FieldOf (s' (ascii "user:1")) (ascii "name") (ascii "\"alice\"") := hname
  have hemail : FieldOf (s' (ascii "user:1")) (ascii "email") (ascii "\"x@y\"") := hemail
  rcases hversions s' hs' with hdoc | hdoc
  · -- Alice's address is longer
    have hstored : (some (userValue alice)).bind (Json.field (ascii "email")) = some (.str (ascii "a@b.c")) := rfl
    rw [hdoc] at hemail
    exact absurd (hemail.longer hstored) (by decide +kernel)
  · -- Alexander's name is longer
    have hstored : (some (userValue alexander)).bind (Json.field (ascii "name")) =
        some (.str (ascii "alexander")) := rfl
    rw [hdoc] at hname
    exact absurd (hname.longer hstored) (by decide +kernel)

end SocketAcl
