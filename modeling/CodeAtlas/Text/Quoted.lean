import CodeAtlas.Text.Printable

/-!
# Quoted text

Diagnostics show a text between double quotes, so that blanks and control characters can be seen.
Quotes and backslashes are escaped by a backslash, common control characters by a letter, and all
other characters that do not stand for themselves by their number in braces.
-/

namespace CodeAtlas.Text

def numberedChar (c : Char) : List Char :=
  ['\\', 'u', '\x7b'] ++ Nat.toDigits 16 c.toNat ++ ['\x7d']

def quotedChar (c : Char) : List Char :=
  if c = '\x22' then ['\\', '\x22']
  else if c = '\\' then ['\\', '\\']
  else if c = '\n' then ['\\', 'n']
  else if c = '\r' then ['\\', 'r']
  else if c = '\t' then ['\\', 't']
  else if c = '\x00' then ['\\', '0']
  else if c.toNat < 0x20 || c.toNat == 0x7f then numberedChar c
  else if c.toNat < 0x80 then [c]
  else if isNumbered c then numberedChar c
  else [c]

def quoted (s : String) : String :=
  String.ofList ('\x22' :: s.toList.flatMap quotedChar ++ ['\x22'])

def quotedMap (items : List (String × String)) : String :=
  "\x7b" ++ ", ".intercalate (items.map fun (key, value) => key ++ ": " ++ value) ++ "\x7d"

def quotedPairs (items : List (String × String)) : String :=
  "[" ++ ", ".intercalate (items.map fun (key, value) =>
    "(" ++ quoted key ++ ", " ++ quoted value ++ ")") ++ "]"

end CodeAtlas.Text
