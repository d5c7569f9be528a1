import Promisify.Text

set_option autoImplicit false

/-! # Events

What a run reports while it works, for whoever listens.
-/

namespace Promisify

/-- How much an event matters. -/
inductive Severity where
  | debug
  | info
  | warn
  | error
  deriving DecidableEq, Repr

/-- The name of a severity. -/
def Severity.name : Severity → String
  | debug => "DEBUG"
  | info => "INFO"
  | warn => "WARN"
  | error => "ERROR"

/-- A message with named values. -/
structure Event where
  severity : Severity
  message : Text
  fields : List (Text × Text)
  deriving DecidableEq, Repr

/-- An event on one line. -/
def Event.line (e : Event) : Text :=
  e.severity.name.toList ++ ' ' :: e.message
    ++ e.fields.flatMap (fun f => ' ' :: f.1 ++ '=' :: f.2) ++ ['\n']

/-- A number in decimal digits. -/
def Text.ofNat (n : Nat) : Text := Nat.toDigits 10 n

/-- A character inside quotes; what could not be told apart in print is escaped. -/
def Text.quotedChar (c : Char) : Text :=
  if c = '"' || c = '\\' then ['\\', c]
  else if c = '\n' then ['\\', 'n']
  else if c = '\r' then ['\\', 'r']
  else if c = '\t' then ['\\', 't']
  else if c.toNat = 0 then ['\\', '0']
  else if c.toNat < 32 || (127 ≤ c.toNat && c.toNat < 160) then
    "\\u\x7b".toList ++ Nat.toDigits 16 c.toNat ++ ['\x7d']
  else [c]

/-- Names in double quotes, separated by commas, in brackets. -/
def Text.quotedList (names : List Text) : Text :=
  '[' :: Text.join ", ".toList
    (names.map fun n => '"' :: n.flatMap Text.quotedChar ++ ['"']) ++ [']']

/-- A value with the events that led to it. -/
structure Logged (α : Type) where
  value : α
  events : List Event

end Promisify
