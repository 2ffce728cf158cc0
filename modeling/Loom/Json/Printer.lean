import Loom.Json

/-!
Writing JSON text, without blanks between the parts.

Every writer takes the text that follows, so that a whole value is written without appending.
-/

namespace Loom.Json.Printer

def hexDigit (n : Nat) : Char := Char.ofNat (if n < 10 then '0'.toNat + n else 'a'.toNat + (n - 10))

/-- The letter of a one-letter escape. -/
def shortEscape? : Char → Option Char
  | '"' => some '"'
  | '\\' => some '\\'
  | '\x08' => some 'b'
  | '\x0c' => some 'f'
  | '\n' => some 'n'
  | '\r' => some 'r'
  | '\t' => some 't'
  | _ => none

/-- A character of a string; control characters without a letter are given by their code. -/
def char (c : Char) (rest : List Char) : List Char :=
  match shortEscape? c with
  | some e => '\\' :: e :: rest
  | none =>
    if c.toNat < 0x20 then
      '\\' :: 'u' :: '0' :: '0' :: hexDigit (c.toNat / 16) :: hexDigit (c.toNat % 16) :: rest
    else c :: rest

def string (s : String) (rest : List Char) : List Char :=
  '"' :: s.toList.foldr char ('"' :: rest)

mutual

def value : Json → List Char → List Char
  | .null, rest => 'n' :: 'u' :: 'l' :: 'l' :: rest
  | .bool true, rest => 't' :: 'r' :: 'u' :: 'e' :: rest
  | .bool false, rest => 'f' :: 'a' :: 'l' :: 's' :: 'e' :: rest
  | .number n, rest => n ++ rest
  | .string s, rest => string s rest
  | .array [], rest => '[' :: ']' :: rest
  | .array (x :: xs), rest => '[' :: value x (items xs (']' :: rest))
  | .object [], rest => '{' :: '}' :: rest
  | .object ((k, x) :: ms), rest => '{' :: string k (':' :: value x (members ms ('}' :: rest)))
  | .unreadable, rest => 'n' :: 'u' :: 'l' :: 'l' :: rest

/-- Further items, each after a comma. -/
def items : List Json → List Char → List Char
  | [], rest => rest
  | x :: xs, rest => ',' :: value x (items xs rest)

/-- Further members, each after a comma. -/
def members : List (String × Json) → List Char → List Char
  | [], rest => rest
  | (k, x) :: ms, rest => ',' :: string k (':' :: value x (members ms rest))

end

end Printer

def write (v : Json) : List Char := Printer.value v []

end Loom.Json
