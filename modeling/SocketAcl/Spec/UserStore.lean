import SocketAcl.Lib.Json
import SocketAcl.Spec.SharedCmd

/-!
# Users in Redis (`User.cpp`, `redisHandler.cpp`)

`set_json_data` stores a user as one JSON document; `json_to_user` asks for its three fields one
after the other and takes each reply as it stands. The text of the document is what
`acl::json::build_json` writes.

Redis with its JSON module is not part of the source: `RedisClient` is the connection,
`StoresJson` what the code relies on.
-/

namespace SocketAcl

structure User where
  name : Bytes
  age : Int32
  email : Bytes
  deriving DecidableEq

/-! ## `acl::json` -/

/-- A child of the root: `add_text`, or `add_number`. -/
inductive JsonNode
  | text (tag value : Bytes)
  | number (tag : Bytes) (value : ℤ)

/-- A byte, as `json_escape_append` writes it. -/
def jsonEscapeByte (b : UInt8) : Bytes :=
  if b = 0x22 ∨ b = 0x5C then [0x5C, b]
  else if b = 8 then [0x5C, 0x62]
  else if b = 12 then [0x5C, 0x66]
  else if b = 10 then [0x5C, 0x6E]
  else if b = 13 then [0x5C, 0x72]
  else if b = 9 then [0x5C, 0x74]
  else [b]

/-- `json_escape_append`. -/
def jsonEscape (src : Bytes) : Bytes := 0x22 :: (src.flatMap jsonEscapeByte ++ [0x22])

/-- `acl_vstring_sprintf(.., "%lld", n)`. -/
def decimalInt (n : ℤ) : Bytes := if n < 0 then 0x2D :: decimal n.natAbs else decimal n.natAbs

def JsonNode.build : JsonNode → Bytes
  | text tag value => jsonEscape tag ++ 0x3A :: jsonEscape value
  | number tag value => jsonEscape tag ++ 0x3A :: decimalInt value

/-- `build_json`. -/
def buildJson (children : List JsonNode) : Bytes :=
  0x7B :: ([0x2C].intercalate (children.map JsonNode.build) ++ [0x7D])

/-- `user_to_json`. -/
def userToJson (user : User) : List JsonNode :=
  [.text (ascii "name") (cstr user.name), .number (ascii "age") user.age.toInt, .text (ascii "email") (cstr user.email)]

/-! ## Redis -/

/-- `acl::redis_result_t`. -/
inductive RedisResultType
  | unknown
  | nil
  | error
  | status
  | integer
  | string
  | array
  deriving DecidableEq

/-- `acl::redis_result`: a nil reply to a request for a string has type `string` and no data. -/
structure RedisResult where
  type : RedisResultType
  /-- what `get(0)` returns, `none` for a null pointer -/
  get : Option Bytes

/-- `acl::redis_client`: what `redis_command::request` returns, `none` for a null pointer. -/
structure RedisClient where
  State : Type
  request : List Bytes → State → Option RedisResult × State

/-- How a load ends without a user. -/
inductive Failure
  /-- `std::runtime_error` -/
  | runtimeError (what : Bytes)
  /-- `std::invalid_argument` of `std::stoi` -/
  | invalidArgument
  /-- `std::out_of_range` of `std::stoi` -/
  | outOfRange
  /-- a `std::string` built from a null pointer: no exception, undefined -/
  | nullString
  deriving DecidableEq

/-- A call on a connection in state `σ`. -/
abbrev RedisCall (σ α : Type) := ExceptT Failure (StateM σ) α

/-- `std::isspace`. -/
def isSpace (b : UInt8) : Bool := b = 32 || 9 ≤ b && b ≤ 13

/-- The sign in front of a number: whether it is a minus, and what is behind it. -/
def sign : Bytes → Bool × Bytes
  | 0x2D :: t => (true, t)
  | 0x2B :: t => (false, t)
  | t => (false, t)

/-- `std::stoi`. -/
def stoi (str : Bytes) : Except Failure Int32 :=
  let (minus, t) := sign (str.dropWhile isSpace)
  let digits := t.takeWhile Json.isDigit
  if digits = [] then .error .invalidArgument
  else
    let n : ℤ := digits.foldl (fun n b => 10 * n + (b.toNat - 48)) 0
    let n := if minus then -n else n
    if -2147483648 ≤ n ∧ n ≤ 2147483647 then .ok (Int32.ofInt n) else .error .outOfRange

variable (client : RedisClient)

/-- `set_json_data`. -/
def setJsonData (key : Bytes) (user : User) : StateM client.State Bool := do
  let result ← client.request [ascii "JSON.SET", key, ascii "$", buildJson (userToJson user)]
  return result.any fun result => result.type = .status

/-- `get_json_field`. -/
def getJsonField (key field : Bytes) : RedisCall client.State Bytes := do
  let result ← ExceptT.lift (client.request [ascii "JSON.GET", key, field])
  match result with
  | none => throw (.runtimeError (ascii "Failed to retrieve JSON field from Redis"))
  | some result =>
    if result.type ≠ .string then throw (.runtimeError (ascii "Failed to retrieve JSON field from Redis"))
    else
      match result.get with
      | none => throw .nullString
      | some text => return cstr text

/-- `json_to_user`; `others i` is what happens to Redis from elsewhere in front of request `i`. -/
def jsonToUser (others : ℕ → client.State → client.State) (key : Bytes) : RedisCall client.State User := do
  modify (others 0)
  let name ← getJsonField client key (ascii "name")
  modify (others 1)
  let age ← getJsonField client key (ascii "age")
  let age ← ExceptT.mk (pure (stoi age))
  modify (others 2)
  let email ← getJsonField client key (ascii "email")
  return { name := name, age := age, email := email }

/-- What the code relies on; `document` is what Redis holds under a key. -/
structure StoresJson (document : client.State → Bytes → Option Json) : Prop where
  /-- a `JSON.SET` that succeeds stores the value of its text -/
  set : ∀ s key user result,
    let request := client.request [ascii "JSON.SET", key, ascii "$", buildJson (userToJson user)] s
    request.1 = some result → result.type = .status →
      (document request.2 key).isSome ∧ document request.2 key = Json.parse (buildJson (userToJson user))
  /-- `JSON.GET` leaves everything as it is -/
  keep : ∀ s key path, document (client.request [ascii "JSON.GET", key, path] s).2 = document s
  /-- a bulk string is a text of the value at the path; a path of letters is a name in the root -/
  get : ∀ s key path result text, (∀ b ∈ path, 0x61 ≤ b ∧ b ≤ 0x7A) →
    (client.request [ascii "JSON.GET", key, path] s).1 = some result → result.type = .string → result.get = some text →
      ∃ value, (document s key).bind (Json.field path) = some value ∧ Json.parse text = some value

end SocketAcl
