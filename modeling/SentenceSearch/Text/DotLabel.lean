/-!
# Labels of drawings

A label of the DOT language stands between double quotes, so a quote or a backslash inside it
takes a backslash before it.

## Main definitions

* `DotLabel.escape` — the text of a label
-/

namespace SentenceSearch.DotLabel

/-- The escaped form of one character. -/
def escapeChar : Char → List Char
  | '\\' => ['\\', '\\']
  | '"' => ['\\', '"']
  | c => [c]

/-- Put a backslash before every quote and every backslash. -/
def escape (label : String) : String := String.ofList (label.toList.flatMap escapeChar)

end SentenceSearch.DotLabel
