import Asn1.Text.Invisible

/-!
Quoted text, as string values are shown: between quotes, where quotes, backslashes and characters
that cannot be seen are escaped.
-/

namespace Asn1.Text

/-- The lower case hexadecimal digits of a number. -/
def hexDigits (n : Nat) : List Char :=
  Nat.toDigits 16 n

/-- Writes a character between quotes. -/
def escape (char : Char) : List Char :=
  match char with
  | '\x00' => ['\\', '0']
  | '\t' => ['\\', 't']
  | '\n' => ['\\', 'n']
  | '\r' => ['\\', 'r']
  | '"' => ['\\', '"']
  | '\\' => ['\\', '\\']
  | _ =>
    if isInvisible char then "\\u\x7b".toList ++ hexDigits char.toNat ++ "\x7d".toList
    else [char]

def quote (text : String) : String :=
  String.ofList ('"' :: text.toList.flatMap escape ++ ['"'])

end Asn1.Text
