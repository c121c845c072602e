import JackTree.Text.Unprintable

/-!
# Quoted text

Messages show texts and paths between quotation marks.  Tabs, line ends, NUL,
backslashes and quotation marks have escapes of their own; every other
character without a visible form is written by its number in hexadecimal.
-/

namespace JackTree.Text

def quotedChar (c : Char) : String :=
  if c = '\t' then "\\t"
  else if c = '\r' then "\\r"
  else if c = '\n' then "\\n"
  else if c = '\x00' then "\\0"
  else if c = '"' then "\\\""
  else if c = '\\' then "\\\\"
  else if isUnprintable c then
    "\\u\x7b" ++ String.ofList (Nat.toDigits 16 c.toNat) ++ "\x7d"
  else String.singleton c

def quote (text : String) : String :=
  "\"" ++ String.join (text.toList.map quotedChar) ++ "\""

end JackTree.Text
