/-!
# Writing JSON

Values made of natural numbers, texts, lists and objects, in a compact form without any blanks and
in a form on many lines with two blanks for each level. Objects keep the order of their fields.

## Main definitions

* `Json` — a value
* `Json.compact`, `Json.pretty` — its two written forms
-/

namespace SentenceSearch

/-- A JSON value. -/
inductive Json where
  /-- A natural number. -/
  | nat (n : Nat)
  /-- A text. -/
  | string (s : String)
  /-- A list. -/
  | array (items : List Json)
  /-- An object: its fields in order. -/
  | object (fields : List (String × Json))

namespace Json

instance : Inhabited Json := ⟨.nat 0⟩

/-- A hexadecimal digit in lower case. -/
def hexDigit (n : Nat) : Char := Nat.digitChar n

/-- The written form of one character of a text. Quotes, backslashes and control characters are
escaped; all other characters stand for themselves. -/
def escapeChar (c : Char) : List Char :=
  if c = '"' then ['\\', '"']
  else if c = '\\' then ['\\', '\\']
  else if c = '\x08' then ['\\', 'b']
  else if c = '\x0c' then ['\\', 'f']
  else if c = '\n' then ['\\', 'n']
  else if c = '\r' then ['\\', 'r']
  else if c = '\t' then ['\\', 't']
  else if c.toNat < 0x20 then
    ['\\', 'u', '0', '0', hexDigit (c.toNat / 16), hexDigit (c.toNat % 16)]
  else [c]

/-- The written form of a text, with its quotes. -/
def quote (s : String) : List Char := '"' :: (s.toList.flatMap escapeChar ++ ['"'])

/-- The written form of a number. -/
def digits (n : Nat) : List Char := Nat.toDigits 10 n

mutual

/-- The characters of the compact form. -/
def compactChars : Json → List Char
  | .nat n => digits n
  | .string s => quote s
  | .array items => '[' :: (compactItems items ++ [']'])
  | .object fields => '\x7b' :: (compactFields fields ++ ['\x7d'])

/-- The items of a list, separated by commas. -/
def compactItems : List Json → List Char
  | [] => []
  | [item] => item.compactChars
  | item :: items => item.compactChars ++ ',' :: compactItems items

/-- The fields of an object, separated by commas. -/
def compactFields : List (String × Json) → List Char
  | [] => []
  | [(key, value)] => quote key ++ ':' :: value.compactChars
  | (key, value) :: fields => quote key ++ ':' :: value.compactChars ++ ',' :: compactFields fields

end

/-- A new line at a level. -/
def newline (level : Nat) : List Char := '\n' :: List.replicate (2 * level) ' '

mutual

/-- The characters of the form on many lines, at a level. -/
def prettyChars (level : Nat) : Json → List Char
  | .nat n => digits n
  | .string s => quote s
  | .array [] => ['[', ']']
  | .array (item :: items) =>
    '[' :: (newline (level + 1) ++ item.prettyChars (level + 1) ++
      prettyItems (level + 1) items ++ newline level ++ [']'])
  | .object [] => ['\x7b', '\x7d']
  | .object ((key, value) :: fields) =>
    '\x7b' :: (newline (level + 1) ++ quote key ++ [':', ' '] ++ value.prettyChars (level + 1) ++
      prettyFields (level + 1) fields ++ newline level ++ ['\x7d'])

/-- The items of a list after the first one. -/
def prettyItems (level : Nat) : List Json → List Char
  | [] => []
  | item :: items =>
    ',' :: (newline level ++ item.prettyChars level ++ prettyItems level items)

/-- The fields of an object after the first one. -/
def prettyFields (level : Nat) : List (String × Json) → List Char
  | [] => []
  | (key, value) :: fields =>
    ',' :: (newline level ++ quote key ++ [':', ' '] ++ value.prettyChars level ++
      prettyFields level fields)

end

/-- The form without any blanks. -/
def compact (json : Json) : String := String.ofList json.compactChars

/-- The form on many lines. -/
def pretty (json : Json) : String := String.ofList (json.prettyChars 0)

end Json

end SentenceSearch
