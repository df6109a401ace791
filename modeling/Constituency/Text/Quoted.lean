import Constituency.Text.Hidden

/-!
# Quoted text

Text between double quotes, with a backslash before quotes and backslashes, short names for the
common controls, and a code point in hexadecimal for any other hidden character.
-/

namespace Constituency.Text
set_option autoImplicit false

def quotedChar (c : Char) : String :=
  if c = '"' then "\\\""
  else if c = '\\' then "\\\\"
  else if c = '\n' then "\\n"
  else if c = '\r' then "\\r"
  else if c = '\t' then "\\t"
  else if c.toNat = 0 then "\\0"
  else if isHidden c then "\\u\x7b" ++ String.ofList (Nat.toDigits 16 c.toNat) ++ "\x7d"
  else c.toString

def quoted (text : String) : String :=
  "\"" ++ String.join (text.toList.map quotedChar) ++ "\""

end Constituency.Text
