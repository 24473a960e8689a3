import SentenceSearch.CommandLine.Options

/-!
# Commands

The words of a command line name one command, with shared options before and after its name.

## Main definitions

* `CommandName` — the names of the commands, with their options and operands
* `Command` — a command with what it needs
* `Invocation` — a command with the shared options
* `Invocation.read` — the invocation that some words spell
-/

namespace SentenceSearch.CommandLine

/-- The name of a command. -/
inductive CommandName where
  | buckets
  | find
  | matching
  | check
  | dot
  | store
  | stats
  | config
  deriving DecidableEq, Repr

namespace CommandName

/-- The word for a command. -/
def word : CommandName → String
  | .buckets => "buckets"
  | .find => "find"
  | .matching => "match"
  | .check => "check"
  | .dot => "dot"
  | .store => "export"
  | .stats => "stats"
  | .config => "config"

/-- All commands. -/
def all : List CommandName := [.buckets, .find, .matching, .check, .dot, .store, .stats, .config]

/-- The command that a word stands for. -/
def ofWord? (word : String) : Option CommandName := all.find? fun name => name.word == word

/-- The options of a command besides the shared ones. -/
def options : CommandName → List OptionName
  | .find => [.max, .timeout]
  | .matching => [.max, .timeout]
  | .dot => [.pattern]
  | .config => [.write]
  | _ => []

/-- Which operands a command takes. A path is never empty. -/
def operandRule : CommandName → OperandRule
  | .buckets => fun i word => i == 0 && word != ""
  | .find => fun i word => i == 0 && word != "" || i == 1
  | .matching => fun i word => i == 0 && word != "" || i == 1
  | .check => fun _ _ => true
  | .dot => fun i _ => i == 0
  | .store => fun i word => decide (i < 2) && word != ""
  | .stats => fun i word => i == 0 && word != ""
  | .config => fun _ _ => false

end CommandName

/-- A command with what it needs. -/
inductive Command where
  /-- How the alphabet of a corpus is spread over buckets. -/
  | buckets (corpus : String)
  /-- The sentences that contain the keys of a query. -/
  | find (corpus query : String) (max timeout : Option Nat)
  /-- The sentences with a match of a pattern. -/
  | matching (corpus pattern : String) (max timeout : Option Nat)
  /-- Which texts a pattern accepts. -/
  | check (pattern : String) (texts : List String)
  /-- A drawing of the tree of a corpus. -/
  | drawTree (corpus : String)
  /-- A drawing of the automaton of a pattern. -/
  | drawPattern (pattern : String)
  /-- Store the tree of a corpus. -/
  | store (corpus directory : String)
  /-- The statistics of the tree of a corpus. -/
  | stats (corpus : String)
  /-- The settings, which may be written to their file. -/
  | config (write : Bool)
  deriving DecidableEq, Repr

/-- The paths that a command looks at or writes to. -/
def Command.places : Command → List String
  | .buckets corpus => [corpus]
  | .find corpus .. => [corpus]
  | .matching corpus .. => [corpus]
  | .check .. => []
  | .drawTree corpus => [corpus]
  | .drawPattern _ => []
  | .store corpus directory => [corpus, directory]
  | .stats corpus => [corpus]
  | .config _ => []

/-- The command that a name, its options and its operands make up. -/
def Command.ofGiven (name : CommandName) (given : Given) : Except Refusal Command :=
  match name, given.operands with
  | .buckets, [corpus] => .ok (.buckets corpus)
  | .find, [corpus, query] =>
    .ok (.find corpus query (given.number? .max) (given.number? .timeout))
  | .matching, [corpus, pattern] =>
    .ok (.matching corpus pattern (given.number? .max) (given.number? .timeout))
  | .check, pattern :: text :: texts => .ok (.check pattern (text :: texts))
  | .dot, [target] => .ok (if given.has .pattern then .drawPattern target else .drawTree target)
  | .store, [corpus, directory] => .ok (.store corpus directory)
  | .stats, [corpus] => .ok (.stats corpus)
  | .config, [] => .ok (.config (given.has .write))
  | _, _ => .error .misuse

/-- A command with the shared options. -/
structure Invocation where
  /-- The command. -/
  command : Command
  /-- The number of buckets, if it is given. -/
  buckets : Option Nat
  /-- Whether hits are shown in color. -/
  color : Bool
  /-- Whether results are shown as JSON. -/
  json : Bool
  /-- Whether to report what is done. -/
  verbose : Bool
  deriving DecidableEq, Repr

namespace Invocation

/-- The word that asks for help, also before the name of a command. -/
def helpWord : String := "help"

/-- What asking for help about some words comes to. -/
def helpAbout : List String → Refusal
  | [] => .help
  | [word] => if word == helpWord || (CommandName.ofWord? word).isSome then .help else .misuse
  | _ => .misuse

/-- The invocation of a command from what is given before and after its name. A number that is
given after it goes before one that is given in front. -/
def ofGiven (name : CommandName) (before after : Given) : Except Refusal Invocation := do
  let either (option : OptionName) := before.has option || after.has option
  pure
    { command := ← Command.ofGiven name after
      -- What is nearer to the command counts.
      buckets := after.number? .buckets <|> before.number? .buckets
      color := !either .noColor
      json := either .json
      verbose := either .verbose }

/-- The invocation that some words spell. -/
def read (words : List String) : Except Refusal Invocation := do
  match ← readOptions OptionName.shared .none words with
  | (before, word :: rest) =>
    if word == helpWord then
      .error (helpAbout rest)
    else
      match CommandName.ofWord? word with
      | none => .error .misuse
      | some name =>
        ofGiven name before
          (← readWords (name.options ++ OptionName.shared) name.operandRule .none rest)
  | (_, []) => .error .misuse

end Invocation

end SentenceSearch.CommandLine
