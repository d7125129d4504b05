import Retention.ObjectId
import Retention.Text.Quoted

namespace Retention

/-- Why a text is no number. -/
inductive NumberFault where
  | empty
  | invalidDigit
  | tooLarge
  deriving DecidableEq

namespace NumberFault

def message : NumberFault → String
  | empty => "cannot parse integer from empty string"
  | invalidDigit => "invalid digit found in string"
  | tooLarge => "number too large to fit in target type"

end NumberFault

namespace Number

/-- Numbers are read into 64 bits. -/
def limit : Nat := UInt64.size

/-- The value of a digit, letters of either case standing for ten and more. -/
def digit? (base : Nat) (c : Char) : Option Nat :=
  let value :=
    if '0' ≤ c ∧ c ≤ '9' then c.toNat - '0'.toNat
    else if 'a' ≤ c ∧ c ≤ 'z' then c.toNat - 'a'.toNat + 10
    else if 'A' ≤ c ∧ c ≤ 'Z' then c.toNat - 'A'.toNat + 10
    else base
  if value < base then some value else none

/-- Reads digits onto an accumulated value. -/
def readDigits (base : Nat) : List Char → Nat → Except NumberFault Nat
  | [], acc => .ok acc
  | c :: rest, acc =>
    match digit? base c with
    | none => .error .invalidDigit
    | some d =>
      if acc * base + d < limit then readDigits base rest (acc * base + d) else .error .tooLarge

/-- One leading plus sign is allowed, if anything follows it. -/
def read (base : Nat) : List Char → Except NumberFault Nat
  | [] => .error .empty
  | ['+'] => .error .invalidDigit
  | '+' :: rest => readDigits base rest 0
  | digits => readDigits base digits 0

end Number

namespace ObjectId

/-- An id is written in decimal, or in hexadecimal after `0x` or `0X`. -/
def parseChars : List Char → Except NumberFault ObjectId
  | '0' :: 'x' :: rest => (Number.read 16 rest).map (fun n => ⟨UInt64.ofNat n⟩)
  | '0' :: 'X' :: rest => (Number.read 16 rest).map (fun n => ⟨UInt64.ofNat n⟩)
  | digits => (Number.read 10 digits).map (fun n => ⟨UInt64.ofNat n⟩)

def parse (text : String) : Except NumberFault ObjectId := parseChars text.toList

/-- What is said about a text that is no id. -/
def parseMessage (text : String) (fault : NumberFault) : String :=
  "invalid object id " ++ Text.quote text ++ ": " ++ fault.message

end ObjectId

end Retention
