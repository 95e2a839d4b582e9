import SocketAcl.Lib.IStream
import SocketAcl.Spec.UserStore

/-!
# What the consoles read (`std::cin`)

The conversions behind `std::cin >>` for the types the MySQL and the Redis program read, in base ten,
and a console: the stream with a log of what was extracted from it and what was sent.
-/

namespace SocketAcl

open IStream (Scanned)

/-! ## Conversions -/

/-- `char`. -/
def scanChar : Bytes → Scanned UInt8 UInt8
  | c :: t => ⟨c, true, t⟩
  | [] => ⟨0, true, []⟩

/-- `std::string`: a word. -/
def scanWord (t : Bytes) : Scanned UInt8 Bytes :=
  ⟨t.takeWhile fun b => !isSpace b, true, t.dropWhile fun b => !isSpace b⟩

/-- The digits at the front of a text, and what is behind them. -/
def digits (t : Bytes) : Bytes × Bytes := (t.takeWhile Json.isDigit, t.dropWhile Json.isDigit)

/-- The number some digits spell. -/
def digitsValue (ds : Bytes) : ℕ := ds.foldl (fun n b => 10 * n + (b.toNat - 48)) 0

/-- The same behind a sign. -/
def signedValue (minus : Bool) (ds : Bytes) : ℤ := if minus then -digitsValue ds else digitsValue ds

/-- `int`: 0 is stored where there is no digit, the nearest `int` where the number is none. -/
def scanInt (t : Bytes) : Scanned UInt8 Int32 :=
  let (minus, u) := sign t
  let (ds, rest) := digits u
  let n := signedValue minus ds
  if ds = [] then ⟨0, false, rest⟩
  else if n < -2147483648 then ⟨-2147483648, false, rest⟩
  else if 2147483647 < n then ⟨2147483647, false, rest⟩
  else ⟨Int32.ofInt n, true, rest⟩

/-- Is `mantissa * 10 ^ exponent` too large for a `double`? -/
def tooLarge (mantissa : ℕ) (exponent : ℤ) : Bool :=
  (2 ^ 1024 - 2 ^ 970) * 10 ^ (-exponent).toNat ≤ mantissa * 10 ^ exponent.toNat

/-- `double`; the value is what spells it. An `e` must be followed by an exponent. -/
def scanDouble (t : Bytes) : Scanned UInt8 Bytes :=
  let (_, u) := sign t
  let (whole, u) := digits u
  let (fraction, u) := if u.head? = some 0x2E then digits u.tail else ([], u)
  if whole ++ fraction = [] then ⟨[], false, u⟩
  else if u.head? = some 0x65 ∨ u.head? = some 0x45 then
    let (minus, u) := sign u.tail
    let (power, rest) := digits u
    if power = [] then ⟨[], false, rest⟩
    else
      let exponent := signedValue minus power - fraction.length
      ⟨t.take (t.length - rest.length), !tooLarge (digitsValue (whole ++ fraction)) exponent, rest⟩
  else ⟨t.take (t.length - u.length), !tooLarge (digitsValue (whole ++ fraction)) (-fraction.length), u⟩

/-! ## Consoles -/

namespace Console

/-- What happens at a console: an extraction that succeeds, or a command that is sent. -/
inductive Entry (κ : Type)
  | char (c : UInt8)
  | word (w : Bytes)
  | int (n : Int32)
  | double (literal : Bytes)
  | sent (command : κ)

end Console

/-- `std::cin`, and what happened so far, the last first. -/
structure Console (κ : Type) where
  cin : IStream UInt8
  log : List (Console.Entry κ)

namespace Console

variable {κ β : Type}

/-- The console of a program whose standard input is `text`. -/
def start (text : Bytes) : Console κ := ⟨⟨text, false⟩, []⟩

/-- `std::cin >> x`: what the variable holds then. -/
def extract (scan : Bytes → Scanned UInt8 β) (entry : β → Entry κ) (x : β) (s : Console κ) : β × Console κ :=
  let r := s.cin.extract isSpace scan x
  (r.1, ⟨r.2, if r.2.failed then s.log else entry r.1 :: s.log⟩)

def getChar (x : UInt8) (s : Console κ) : UInt8 × Console κ := s.extract scanChar .char x

def getString (x : Bytes) (s : Console κ) : Bytes × Console κ := s.extract scanWord .word x

def getInt (x : Int32) (s : Console κ) : Int32 × Console κ := s.extract scanInt .int x

def getDouble (x : Bytes) (s : Console κ) : Bytes × Console κ := s.extract scanDouble .double x

/-- `std::cin.clear()` and `std::cin.ignore(10000, '\n')`. -/
def clearLine (s : Console κ) : Console κ := ⟨⟨IStream.skipLine 10 10000 s.cin.rest, false⟩, s.log⟩

def send (command : κ) (s : Console κ) : Console κ := ⟨s.cin, .sent command :: s.log⟩

end Console

end SocketAcl
