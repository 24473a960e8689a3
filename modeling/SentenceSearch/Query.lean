/-!
# Wildcard queries

A wildcard query is a text in which stars stand for gaps. Its keys are the pieces between them.

## Main definitions

* `Query.keys` — the keys of a query
* `Query.variations` — every way of putting single stars between the characters of a text
-/

namespace SentenceSearch.Query

/-- The character that stands for a gap. -/
def gap : Char := '*'

/-- The parts of a text between its stars, empty ones included. -/
def pieces : List Char → List (List Char)
  | [] => [[]]
  | c :: text =>
    if c = gap then
      [] :: pieces text
    else
      match pieces text with
      | [] => [[c]]
      | piece :: rest => (c :: piece) :: rest

/-- The keys of a query: its parts without the empty ones. -/
def keys (query : List Char) : List (List Char) := (pieces query).filter (!·.isEmpty)

/-- Every way of putting stars between adjacent characters of a text, the text itself first. There
are `2 ^ (n - 1)` of them for `n` characters. -/
def variations : List Char → List (List Char)
  | [] => []
  | [c] => [[c]]
  | c :: d :: rest =>
    let later := variations (d :: rest)
    -- First all the ways without a star here, then all those with one.
    later.map (c :: ·) ++ later.map (c :: gap :: ·)

end SentenceSearch.Query
