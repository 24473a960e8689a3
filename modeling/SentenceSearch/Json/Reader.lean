/-!
# Reading JSON

A JSON text is read into a tree. Some flaws do not concern the grammar: escapes that are no
Unicode text, numbers beyond the range of double precision, and deep nesting. The tree only notes
them, because a part that nobody asks for is skipped whatever it holds.

## Main definitions

* `JsonTree` — what a JSON text says
* `JsonTree.read` — the tree of a text
* `JsonTree.isSound` — whether a tree is without flaws
* `JsonTree.string?`, `JsonTree.nat?`, `JsonTree.fields?` — the parts that a reader asks for
-/

namespace SentenceSearch

/-- What a JSON text says. A text with an escape that is no Unicode text is `none`. -/
inductive JsonTree where
  | null
  | bool (b : Bool)
  /-- A number without sign, fraction and exponent that fits into a word of 64 bits. -/
  | nat (n : Nat)
  /-- Any other number, and whether it is in the range of double precision. -/
  | number (inRange : Bool)
  | string (s : Option String)
  | array (items : List JsonTree)
  | object (fields : List (Option String × JsonTree))

namespace JsonTree

instance : Inhabited JsonTree := ⟨.null⟩

/-! ### Lexical parts -/

/-- Whether a character may stand between the symbols of a text. -/
def isBlank (c : Char) : Bool := c = ' ' || c = '\t' || c = '\n' || c = '\r'

/-- Drop the blanks in front. -/
def skipBlanks (text : List Char) : List Char := text.dropWhile isBlank

/-- The value of a hexadecimal digit of either case. -/
def hexValue? (c : Char) : Option Nat :=
  if '0' ≤ c && c ≤ '9' then some (c.toNat - '0'.toNat)
  else if 'a' ≤ c && c ≤ 'f' then some (c.toNat - 'a'.toNat + 10)
  else if 'A' ≤ c && c ≤ 'F' then some (c.toNat - 'A'.toNat + 10)
  else none

/-- The value of four hexadecimal digits, and the text after them. -/
def readHex4 : List Char → Option (Nat × List Char)
  | a :: b :: c :: d :: rest => do
    let a ← hexValue? a
    let b ← hexValue? b
    let c ← hexValue? c
    let d ← hexValue? d
    pure (((a * 16 + b) * 16 + c) * 16 + d, rest)
  | _ => none

/-- The character of a one-letter escape. -/
def simpleEscape? : Char → Option Char
  | '"' => some '"'
  | '\\' => some '\\'
  | '/' => some '/'
  | 'b' => some '\x08'
  | 'f' => some '\x0c'
  | 'n' => some '\n'
  | 'r' => some '\r'
  | 't' => some '\t'
  | _ => none

/-- Whether a code unit is the first half of a surrogate pair. -/
def isHighSurrogate (unit : Nat) : Bool := 0xD800 ≤ unit && unit ≤ 0xDBFF

/-- Whether a code unit is the second half of a surrogate pair. -/
def isLowSurrogate (unit : Nat) : Bool := 0xDC00 ≤ unit && unit ≤ 0xDFFF

/-- The character of a surrogate pair. -/
def pairChar (high low : Nat) : Char :=
  Char.ofNat (0x10000 + (high - 0xD800) * 0x400 + (low - 0xDC00))

/-- A unit of a text in quotes: a character, half of a surrogate pair, or the end. -/
inductive TextUnit where
  | char (c : Char)
  | half (unit : Nat)
  | close

/-- The next unit of a text in quotes. -/
def readUnit : List Char → Option (TextUnit × List Char)
  | '"' :: rest => some (.close, rest)
  | '\\' :: 'u' :: rest => do
    let (unit, rest) ← readHex4 rest
    pure (if isHighSurrogate unit || isLowSurrogate unit then .half unit
      else .char (Char.ofNat unit), rest)
  | '\\' :: c :: rest => do
    let c ← simpleEscape? c
    pure (.char c, rest)
  | c :: rest => if c = '\\' || c.toNat < 0x20 then none else some (.char c, rest)
  | [] => none

/-- The units of a text up to its closing quote. The fuel bounds their number. -/
def readUnits : Nat → List Char → Option (List TextUnit × List Char)
  | 0, _ => none
  | fuel + 1, text => do
    match ← readUnit text with
    | (.close, rest) => pure ([], rest)
    | (unit, rest) =>
      let (units, rest) ← readUnits fuel rest
      pure (unit :: units, rest)

/-- The text of a list of units, unless half of a pair stands alone. -/
def joinUnits : List TextUnit → Option (List Char)
  | [] => some []
  | .char c :: units => (joinUnits units).map (c :: ·)
  -- Two halves make a character only in the right order.
  | .half high :: .half low :: units =>
    if isHighSurrogate high && isLowSurrogate low then
      (joinUnits units).map (pairChar high low :: ·)
    else
      none
  | _ => none

/-- A text after its opening quote. -/
def readString (text : List Char) : Option (Option String × List Char) := do
  let (units, rest) ← readUnits (text.length + 1) text
  pure ((joinUnits units).map String.ofList, rest)

/-- The digits in front of a text. -/
def spanDigits (text : List Char) : List Char × List Char := text.span Char.isDigit

/-- The number that decimal digits spell. -/
def ofDigits (digits : List Char) : Nat :=
  digits.foldl (fun n c => 10 * n + (c.toNat - '0'.toNat)) 0

/-- The whole part of a number: no zero stands in front of another digit. -/
def readWhole (text : List Char) : Option (List Char × List Char) :=
  match spanDigits text with
  | ([], _) => none
  -- More digits after a zero would be a second number.
  | ('0' :: _ :: _, _) => none
  | (digits, rest) => some (digits, rest)

/-- The fraction of a number, if there is one. -/
def readFraction : List Char → Option (List Char × List Char)
  | '.' :: text =>
    match spanDigits text with
    | ([], _) => none
    | (digits, rest) => some (digits, rest)
  | text => some ([], text)

/-- The exponent of a number, if there is one. -/
def readExponent : List Char → Option (Option Int × List Char)
  | c :: text =>
    if c = 'e' || c = 'E' then
      let (negative, text) :=
        match text with
        | '-' :: text => (true, text)
        | '+' :: text => (false, text)
        | text => (false, text)
      match spanDigits text with
      | ([], _) => none
      | (digits, rest) =>
        let n : Int := ofDigits digits
        some (some (if negative then -n else n), rest)
    else
      some (none, c :: text)
  | [] => some (none, [])

/-- Numbers below this bound fit into a word of 64 bits. -/
def longWordBound : Nat := 0x10000000000000000

/-- The number that the first of some decimal digits spell, as many as fit into a word of 64 bits
after `n`, and how many digits are left out. -/
def leadingDigits (n : Nat) : List Char → Nat × Nat
  | [] => (n, 0)
  | c :: digits =>
    let next := 10 * n + (c.toNat - '0'.toNat)
    if next < longWordBound then leadingDigits next digits else (n, digits.length + 1)

/-- Number of binary digits in double precision. -/
def precision : Nat := 53

/-- The nearest number in double precision, ties to an even last digit. -/
def rounded (n : Nat) : Nat :=
  let unit := Nat.pow 2 (n.log2 + 1 - precision)
  let below := n / unit
  let rest := n % unit
  if unit < 2 * rest || (2 * rest == unit && below % 2 == 1) then (below + 1) * unit
  else below * unit

/-- The least magnitude that rounds beyond the greatest number of double precision. -/
def overflowBound : Nat := Nat.pow 2 1024 - Nat.pow 2 970

/-- The greatest power of ten in double precision. -/
def maxExponent : Nat := 308

/-- Whether the number that decimal digits spell, times a power of ten, stays in the range of
double precision. It is computed as a product of two rounded numbers. -/
def inDoubleRange (digits : List Char) (exponent : Int) : Bool :=
  let (significand, left) := leadingDigits 0 digits
  let power := (exponent + left).toNat
  -- A negative power only makes the number smaller.
  if significand = 0 then true
  else if maxExponent < power then false
  else rounded significand * rounded (Nat.pow 10 power) < overflowBound

/-- A number. One that fits into no word of 64 bits is like one with a fraction. -/
def readNumber (text : List Char) : Option (JsonTree × List Char) := do
  let (negative, text) :=
    match text with
    | '-' :: text => (true, text)
    | text => (false, text)
  let (whole, text) ← readWhole text
  let (fraction, text) ← readFraction text
  let (exponent, text) ← readExponent text
  if !negative && fraction.isEmpty && exponent.isNone && ofDigits whole < longWordBound then
    pure (.nat (ofDigits whole), text)
  else
    let shift := exponent.getD 0 - fraction.length
    pure (.number (inDoubleRange (whole ++ fraction) shift), text)

/-- Drop a word from the front of a text. -/
def dropWord (word : List Char) (text : List Char) : Option (List Char) :=
  if word.isPrefixOf text then some (text.drop word.length) else none

/-! ### Values -/

mutual

/-- A value at the front of a text. The fuel bounds the number of values and separators. -/
def readValue : Nat → List Char → Option (JsonTree × List Char)
  | 0, _ => none
  | fuel + 1, text =>
    match skipBlanks text with
    | [] => none
    | '"' :: rest => (readString rest).map fun (s, rest) => (.string s, rest)
    | '[' :: rest =>
      match skipBlanks rest with
      | ']' :: rest => some (.array [], rest)
      | rest => (readItems fuel rest).map fun (items, rest) => (.array items, rest)
    | '\x7b' :: rest =>
      match skipBlanks rest with
      | '\x7d' :: rest => some (.object [], rest)
      | rest => (readFields fuel rest).map fun (fields, rest) => (.object fields, rest)
    | 'n' :: rest => (dropWord ['u', 'l', 'l'] rest).map (.null, ·)
    | 't' :: rest => (dropWord ['r', 'u', 'e'] rest).map (.bool true, ·)
    | 'f' :: rest => (dropWord ['a', 'l', 's', 'e'] rest).map (.bool false, ·)
    | rest => readNumber rest

/-- The items of a list and its closing bracket. -/
def readItems : Nat → List Char → Option (List JsonTree × List Char)
  | 0, _ => none
  | fuel + 1, text => do
    let (item, rest) ← readValue fuel text
    match skipBlanks rest with
    | ']' :: rest => pure ([item], rest)
    | ',' :: rest =>
      let (items, rest) ← readItems fuel rest
      pure (item :: items, rest)
    | _ => none

/-- The fields of an object and its closing brace. -/
def readFields : Nat → List Char → Option (List (Option String × JsonTree) × List Char)
  | 0, _ => none
  | fuel + 1, text =>
    match skipBlanks text with
    | '"' :: rest => do
      let (key, rest) ← readString rest
      match skipBlanks rest with
      | ':' :: rest =>
        let (value, rest) ← readValue fuel rest
        match skipBlanks rest with
        | '\x7d' :: rest => pure ([(key, value)], rest)
        | ',' :: rest =>
          let (fields, rest) ← readFields fuel rest
          pure ((key, value) :: fields, rest)
        | _ => none
      | _ => none
    | _ => none

end

/-- The tree of a text that holds one value and blanks. -/
def read (text : List Char) : Option JsonTree :=
  match readValue (text.length + 1) text with
  | some (tree, rest) => if (skipBlanks rest).isEmpty then some tree else none
  | none => none

/-! ### Flaws -/

/-- How many lists and objects may stand inside each other. -/
def depthLimit : Nat := 127

mutual

/-- Whether a tree is without flaws, with at most `depth` levels of lists and objects. -/
def isSoundWithin (depth : Nat) : JsonTree → Bool
  | .null => true
  | .bool _ => true
  | .nat _ => true
  | .number inRange => inRange
  | .string s => s.isSome
  | .array items =>
    match depth with
    | 0 => false
    | depth + 1 => itemsAreSound depth items
  | .object fields =>
    match depth with
    | 0 => false
    | depth + 1 => fieldsAreSound depth fields

/-- Whether all items are without flaws. -/
def itemsAreSound (depth : Nat) : List JsonTree → Bool
  | [] => true
  | item :: items => item.isSoundWithin depth && itemsAreSound depth items

/-- Whether all fields are without flaws. -/
def fieldsAreSound (depth : Nat) : List (Option String × JsonTree) → Bool
  | [] => true
  | (key, value) :: fields =>
    key.isSome && value.isSoundWithin depth && fieldsAreSound depth fields

end

/-- Whether a tree is without flaws. -/
def isSound (tree : JsonTree) : Bool := tree.isSoundWithin depthLimit

/-! ### Parts -/

/-- The text that a tree is. -/
def string? : JsonTree → Option String
  | .string s => s
  | _ => none

/-- The natural number below `bound` that a tree is. -/
def nat? (bound : Nat) : JsonTree → Option Nat
  | .nat n => if n < bound then some n else none
  | _ => none

/-- The values of the fields `names`. An object gives them by name: other fields are skipped, but
every name has to be a text, and none of `names` may come twice. A list gives them by position;
it may end early but not go on. -/
def fields? (names : List String) : JsonTree → Option (List (Option JsonTree))
  | .object fields =>
    if fields.all (fun field => field.1.isSome) &&
        names.all (fun name => fields.countP (fun field => field.1 == some name) ≤ 1) then
      some (names.map fun name => (fields.find? fun field => field.1 == some name).map Prod.snd)
    else
      none
  | .array items =>
    -- Fields that are missing at the end are like names that do not come.
    if items.length ≤ names.length then
      some (items.map some ++ List.replicate (names.length - items.length) none)
    else
      none
  | _ => none

end JsonTree

end SentenceSearch
