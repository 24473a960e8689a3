import SentenceSearch.Files.Glob

/-!
# Matching globs

A name is matched as the bytes of its UTF-8 form. All matches are followed together: a mark for each
place in the name tells whether what has been read of the glob may end there. A token moves the
marks, and a glob matches where the last place is marked in the end.

## Main definitions

* `Glob.Marks` — the places where a part of a glob may end
* `Glob.advance`, `Glob.advanceAll` — the marks after a token, and after a glob
* `Glob.accepts` — whether a glob matches a name
-/

namespace SentenceSearch.Glob

open GlobToken

/-- One mark before each byte of a name and one after the last byte. -/
abbrev Marks := List Bool

/-- The byte that separates the names of a path. -/
def slash : UInt8 := 0x2F

/-- The mark at the front of a name. -/
def frontMark (name : List UInt8) : Marks := true :: name.map fun _ => false

/-- The marks after one byte that fits. -/
def stepOver (fits : UInt8 → Bool) (name : List UInt8) (marks : Marks) : Marks :=
  false :: List.zipWith (fun b mark => mark && fits b) name marks

/-- The marks after any number of bytes that fit. `reached` tells whether the first place can be
reached from in front of it. -/
def stepOverAll (fits : UInt8 → Bool) (reached : Bool) : List UInt8 → Marks → Marks
  | b :: name, mark :: marks =>
    (reached || mark) :: stepOverAll fits ((reached || mark) && fits b) name marks
  | _, marks => marks.map fun mark => reached || mark

/-- The marks after anything. -/
def stepOverAny (name : List UInt8) (marks : Marks) : Marks :=
  stepOverAll (fun _ => true) false name marks

/-- Those marks that stand after a slash. -/
def afterSlash (name : List UInt8) (marks : Marks) : Marks :=
  false :: List.zipWith (fun b mark => mark && b == slash) name marks.tail

/-- The marks of two ways together. -/
def either (marks others : Marks) : Marks := List.zipWith (· || ·) marks others

mutual

/-- The marks after a token. With `split`, wildcards do not match slashes. -/
def advance (split : Bool) (name : List UInt8) : GlobToken → Marks → Marks
  | .literal c, marks =>
    (bytesOf c).foldl (fun marks b => stepOver (fun other => other == b) name marks) marks
  | .anyByte, marks => stepOver (fun b => !(split && b == slash)) name marks
  | .anyBytes, marks => stepOverAll (fun b => !(split && b == slash)) false name marks
  -- Nothing, or anything up to a slash.
  | .directoriesBefore, marks => either marks (afterSlash name (stepOverAny name marks))
  -- A slash and anything behind it.
  | .everythingInside, marks => stepOverAny name (stepOver (· == slash) name marks)
  -- From one slash to another, which may be the same.
  | .directoriesBetween, marks =>
    afterSlash name (stepOverAny name (stepOver (· == slash) name marks))
  | .byteClass negated ranges, marks =>
    stepOver (fun b => inRanges ranges b != negated) name marks
  | .alternatives branches, marks =>
    if branches.isEmpty then marks else advanceAny split name branches marks

/-- The marks after all tokens of a glob. -/
def advanceAll (split : Bool) (name : List UInt8) : List GlobToken → Marks → Marks
  | [], marks => marks
  | token :: glob, marks =>
    -- Without a mark nothing can match any more.
    if marks.contains true then advanceAll split name glob (advance split name token marks)
    else marks

/-- The marks after one of some alternatives. -/
def advanceAny (split : Bool) (name : List UInt8) : List (List GlobToken) → Marks → Marks
  | [], marks => marks.map fun _ => false
  | branch :: branches, marks =>
    either (advanceAll split name branch marks) (advanceAny split name branches marks)

end

/-- Whether a glob matches a name. Two stars alone match everything. With `split`, the name is a
path, and wildcards do not match its slashes. -/
def accepts (glob : Glob) (name : List UInt8) (split : Bool := false) : Bool :=
  -- A glob of two stars alone does not even ask for a slash.
  match glob with
  | [.directoriesBefore] => true
  | _ => (advanceAll split name glob (frontMark name)).getLastD false

end SentenceSearch.Glob
