import SentenceSearch.Files.Glob

/-!
# How deep globs nest

Every token of a glob stands for an expression over bytes, and expressions nest. A glob that nests
too deep cannot be used.

## Main definitions

* `GlobToken.depth`, `Glob.depth` — how deep a token and a glob nest
* `Glob.isTooDeep` — whether a glob cannot be used
-/

namespace SentenceSearch

namespace GlobToken

/-- The number of expressions that a token adds to its row. -/
def width : GlobToken → Nat
  | .literal c => (bytesOf c).length
  | .everythingInside => 2
  | .alternatives branches => if branches.isEmpty then 0 else 1
  | _ => 1

/-- The number of expressions in a row of tokens. -/
def rowWidth (tokens : List GlobToken) : Nat := tokens.foldl (fun n token => n + token.width) 0

mutual

/-- How deep the expression of a token nests. A wildcard is a class of bytes, which is repeated for
a star. Directories are a group with a choice, one side of which is a row with a repeated byte. -/
def depth : GlobToken → Nat
  | .literal _ => 0
  | .anyByte => 1
  | .anyBytes => 2
  | .directoriesBefore => 4
  | .everythingInside => 1
  | .directoriesBetween => 4
  -- Several ranges form a union inside their class.
  | .byteClass _ ranges => if ranges.length < 2 then 1 else 2
  -- Several branches form a choice inside their group.
  | .alternatives branches => min branches.length 2 + choiceDepth branches

/-- The depth of the deepest token in a row. -/
def maxDepth : List GlobToken → Nat
  | [] => 0
  | token :: tokens => max token.depth (maxDepth tokens)

/-- The depth of the deepest branch. A single expression is no row. -/
def choiceDepth : List (List GlobToken) → Nat
  | [] => 0
  | branch :: branches => max (min (rowWidth branch - 1) 1 + maxDepth branch) (choiceDepth branches)

end

end GlobToken

namespace Glob

/-- How deep a glob nests. It always is a row, for it starts and ends with an anchor. -/
def depth (glob : Glob) : Nat := GlobToken.maxDepth glob + 1

/-- No glob that is used nests deeper than this. -/
def depthLimit : Nat := 250

/-- Whether a glob nests too deep to be used. -/
def isTooDeep (glob : Glob) : Bool := decide (depthLimit < glob.depth)

end Glob

end SentenceSearch
