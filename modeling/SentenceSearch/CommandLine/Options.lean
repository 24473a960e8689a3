import SentenceSearch.Settings

/-!
# Options on a command line

The words of a command line are options and operands. Options have long names after two hyphens,
and some have a letter after one hyphen; letters may be joined. A number comes after an equals
sign, right after the letter, or in the next word. Two hyphens alone end the options.

## Main definitions

* `OptionName` — the options, with `long`, `letter?` and `takesNumber`
* `Given` — what has been given: options, numbers and operands
* `readOptions` — what is given in front of the first operand
* `readWords` — what options and operands in any order give
-/

namespace SentenceSearch.CommandLine

/-- An option. -/
inductive OptionName where
  | help
  | verbose
  | buckets
  | noColor
  | json
  | max
  | timeout
  | pattern
  | write
  deriving DecidableEq, Repr

namespace OptionName

/-- The name after two hyphens. -/
def long : OptionName → String
  | .help => "help"
  | .verbose => "verbose"
  | .buckets => "buckets"
  | .noColor => "no-color"
  | .json => "json"
  | .max => "max"
  | .timeout => "timeout-ms"
  | .pattern => "pattern"
  | .write => "write"

/-- The letter after one hyphen. -/
def letter? : OptionName → Option Char
  | .help => some 'h'
  | .verbose => some 'v'
  | .max => some 'm'
  | _ => none

/-- Whether a number belongs to the option. -/
def takesNumber : OptionName → Bool
  | .buckets => true
  | .max => true
  | .timeout => true
  | _ => false

/-- The options that may be given before and after the name of a command. -/
def shared : List OptionName := [.help, .verbose, .buckets, .noColor, .json]

end OptionName

/-- Why a command line is not carried out. -/
inductive Refusal where
  /-- It asks for help. -/
  | help
  /-- It is against the rules. -/
  | misuse
  deriving DecidableEq, Repr

/-- The number that a word spells: decimal digits, maybe after a plus sign. -/
def readNumber? (word : List Char) : Option Nat :=
  let digits :=
    match word with
    | '+' :: rest => rest
    | _ => word
  if digits.isEmpty || !digits.all Char.isDigit then
    none
  else
    let n := digits.foldl (fun n c => 10 * n + (c.toNat - '0'.toNat)) 0
    if n < Settings.numberBound then some n else none

/-- What some words give. -/
structure Given where
  /-- The options without a number. -/
  flags : List OptionName
  /-- The options with their numbers. -/
  numbers : List (OptionName × Nat)
  /-- The operands in order. -/
  operands : List String
  deriving DecidableEq, Repr

namespace Given

/-- Nothing is given. -/
def none : Given := ⟨[], [], []⟩

/-- Whether an option is given. -/
def has (given : Given) (option : OptionName) : Bool := given.flags.contains option

/-- The number of an option, if it is given. -/
def number? (given : Given) (option : OptionName) : Option Nat := given.numbers.lookup option

/-- Give an option without a number. No option is given twice. -/
def addFlag (given : Given) (option : OptionName) : Except Refusal Given :=
  if option = .help then .error .help
  else if given.has option then .error .misuse
  else .ok { given with flags := option :: given.flags }

/-- Give an option with the word for its number. No option is given twice. -/
def addNumber (given : Given) (option : OptionName) (word : List Char) : Except Refusal Given :=
  match readNumber? word with
  | .none => .error .misuse
  | some n =>
    if (given.number? option).isSome then .error .misuse
    else .ok { given with numbers := (option, n) :: given.numbers }

/-- Give an operand. -/
def addOperand (given : Given) (word : String) : Given :=
  { given with operands := given.operands ++ [word] }

end Given

/-- What a word is. -/
inductive Word where
  /-- Two hyphens alone. -/
  | endOfOptions
  /-- A long name, maybe with a value after an equals sign. -/
  | long (name : List Char) (value : Option (List Char))
  /-- Letters after one hyphen. -/
  | letters (letters : List Char)
  /-- Anything else, also a hyphen alone. -/
  | operand
  deriving DecidableEq, Repr

namespace Word

/-- What a word is. -/
def ofString (word : String) : Word :=
  match word.toList with
  | ['-', '-'] => .endOfOptions
  | '-' :: '-' :: rest =>
    let name := rest.takeWhile (· ≠ '=')
    match rest.drop name.length with
    | [] => .long name none
    | _ :: value => .long name (some value)
  | '-' :: c :: rest => .letters (c :: rest)
  | _ => .operand

end Word

/-- What is given after a word, and the option that still waits for its number. -/
abbrev Pending := Given × Option OptionName

/-- Read a long name. -/
def readLong (known : List OptionName) (given : Given) (name : List Char)
    (value : Option (List Char)) : Except Refusal Pending :=
  match known.find? (fun option => option.long.toList == name), value with
  | none, _ => .error .misuse
  | some option, none =>
    if option.takesNumber then .ok (given, some option)
    else (given.addFlag option).map fun given => (given, none)
  | some option, some value =>
    if option.takesNumber then (given.addNumber option value).map fun given => (given, none)
    else .error .misuse

/-- Read joined letters. What comes after the letter of an option with a number is the number. -/
def readLetters (known : List OptionName) (given : Given) : List Char → Except Refusal Pending
  | [] => .ok (given, none)
  | letter :: rest =>
    match known.find? (fun option => option.letter? == some letter) with
    | none => .error .misuse
    | some option =>
      if option.takesNumber then
        match rest with
        | [] => .ok (given, some option)
        | '=' :: value => (given.addNumber option value).map fun given => (given, none)
        | value => (given.addNumber option value).map fun given => (given, none)
      else
        match given.addFlag option with
        | .ok given => readLetters known given rest
        | .error refusal => .error refusal

/-- Read the word for the number that an option waits for. -/
def readPending (given : Given) (option : OptionName) (word : String) : Except Refusal Given :=
  if Word.ofString word = .operand then given.addNumber option word.toList else .error .misuse

/-- Whether another operand may be given, and which words it may be. -/
abbrev OperandRule := Nat → String → Bool

/-- Give an operand where the rule allows it. -/
def Given.addOperandBy (rule : OperandRule) (given : Given) (word : String) :
    Except Refusal Given :=
  if rule given.operands.length word then .ok (given.addOperand word) else .error .misuse

/-- Read words into what is given, up to the first operand or the end of the options. Also gives
the words from there on. -/
def readOptions (known : List OptionName) :
    Given → List String → Except Refusal (Given × List String)
  | given, [] => .ok (given, [])
  | given, word :: words =>
    let onward (pending : Pending) : Except Refusal (Given × List String) :=
      match pending with
      | (given, none) => readOptions known given words
      | (given, some option) =>
        match words with
        | [] => .error .misuse
        | value :: words =>
          match readPending given option value with
          | .ok given => readOptions known given words
          | .error refusal => .error refusal
    match Word.ofString word with
    -- Nothing but the name of a command may follow, which two hyphens are not.
    | .endOfOptions => .ok (given, word :: words)
    | .operand => .ok (given, word :: words)
    | .long name value => do onward (← readLong known given name value)
    | .letters letters => do onward (← readLetters known given letters)

/-- Read words into what is given. Options and operands may be mixed up to the end of the options;
all words after it are operands. -/
def readWords (known : List OptionName) (rule : OperandRule) :
    Given → List String → Except Refusal Given
  | given, [] => .ok given
  | given, word :: words =>
    let onward (pending : Pending) : Except Refusal Given :=
      match pending with
      | (given, none) => readWords known rule given words
      | (given, some option) =>
        match words with
        | [] => .error .misuse
        | value :: words =>
          match readPending given option value with
          | .ok given => readWords known rule given words
          | .error refusal => .error refusal
    match Word.ofString word with
    | .endOfOptions => words.foldlM (Given.addOperandBy rule) given
    | .operand => do readWords known rule (← given.addOperandBy rule word) words
    | .long name value => do onward (← readLong known given name value)
    | .letters letters => do onward (← readLetters known given letters)

end SentenceSearch.CommandLine
