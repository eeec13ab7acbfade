import ChainNode.Text.Graphic

/-!
# Quoted text

A text between double quotes on one line: the quote and the backslash are escaped by a backslash,
line breaks, tabs and NUL have escapes of one letter, and what would not show is written by its
code point in hexadecimal.
-/

namespace ChainNode.Text

/-- The spelling of one character between quotes. -/
def quotedChar (c : Char) : List Char :=
  match c with
  | '\x00' => ['\\', '0']
  | '\t' => ['\\', 't']
  | '\r' => ['\\', 'r']
  | '\n' => ['\\', 'n']
  | '"' => ['\\', '"']
  | '\\' => ['\\', '\\']
  | c =>
    if isGraphic c then [c]
    else ['\\', 'u', '\x7b'] ++ Nat.toDigits 16 c.toNat ++ ['\x7d']

/-- The text between double quotes. -/
def quoted (s : List Char) : String :=
  String.ofList ('"' :: s.flatMap quotedChar ++ ['"'])

end ChainNode.Text
