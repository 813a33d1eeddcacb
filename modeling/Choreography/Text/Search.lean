/-
Choreography/Text/Search.lean

Searching in a text: the first doubled character, the parts between separators,
and the replacement of every occurrence of a pattern.
-/

namespace Choreography

namespace Text

/-- Cuts a text at the first place where `c` stands twice in a row, and drops the
two. -/
def cutAtDouble (c : Char) : List Char → Option (List Char × List Char)
  | [] => none
  | [_] => none
  | a :: b :: rest =>
    if a = c ∧ b = c then some ([], rest)
    else (cutAtDouble c (b :: rest)).map fun (before, after) => (a :: before, after)

/-- The parts of a text between the separators `c`; there is always at least one. -/
def splitOn (c : Char) : List Char → List (List Char)
  | [] => [[]]
  | a :: rest =>
    if a = c then [] :: splitOn c rest
    else
      match splitOn c rest with
      | [] => [[a]]
      | part :: parts => (a :: part) :: parts

/-- Replaces, from left to right, every occurrence of `pattern`; `skip` characters
are already covered by an occurrence. -/
def replaceFrom (pattern new : List Char) : Nat → List Char → List Char
  | _, [] => []
  | skip + 1, _ :: rest => replaceFrom pattern new skip rest
  | 0, a :: rest =>
    if pattern.isPrefixOf (a :: rest) then new ++ replaceFrom pattern new (pattern.length - 1) rest
    else a :: replaceFrom pattern new 0 rest

/-- Replaces every occurrence of a non-empty pattern. -/
def replaceAll (pattern new text : String) : String :=
  String.ofList (replaceFrom pattern.toList new.toList 0 text.toList)

end Text

end Choreography
