import MipsToolchain.Text.Hex
import MipsToolchain.Text.Printable

namespace MipsToolchain.Text

def escapeChar (c : Char) : List Char :=
  if c = '"' then ['\\', '"']
  else if c = '\\' then ['\\', '\\']
  else if isPrintable c then [c]
  else match c.toNat with
    | 7 => ['\\', 'a']
    | 8 => ['\\', 'b']
    | 9 => ['\\', 't']
    | 10 => ['\\', 'n']
    | 11 => ['\\', 'v']
    | 12 => ['\\', 'f']
    | 13 => ['\\', 'r']
    | n =>
      if n < 128 then '\\' :: 'x' :: (hexPadded 2 n).toList
      else if n < 0x10000 then '\\' :: 'u' :: (hexPadded 4 n).toList
      else '\\' :: 'U' :: (hexPadded 8 n).toList

def inQuotes (body : List Char) : String :=
  String.ofList ('"' :: body ++ ['"'])

def quoted (s : String) : String :=
  inQuotes (s.toList.flatMap escapeChar)

def quotedChar (c : Char) : String :=
  let body := if c = '\'' then ['\\', '\''] else if c = '"' then ['"'] else escapeChar c
  String.ofList ('\'' :: body ++ ['\''])

end MipsToolchain.Text
