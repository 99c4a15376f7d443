/-!
# Cutting texts

A text with `n` separators in it has `n + 1` pieces.
-/

namespace BoxScript.Text

/-- The pieces between the characters `sep`. -/
def splitAt (sep : Char) : List Char → List (List Char)
  | [] => [[]]
  | c :: cs =>
    match splitAt sep cs with
    | [] => [[c]]
    | piece :: pieces => if c = sep then [] :: piece :: pieces else (c :: piece) :: pieces

/-- The pieces of a text between the characters `sep`. -/
def pieces (sep : Char) (s : String) : List String :=
  (splitAt sep s.toList).map String.ofList

end BoxScript.Text
