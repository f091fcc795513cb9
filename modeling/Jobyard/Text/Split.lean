/-!
Texts cut at every occurrence of one character. The pieces joined with that character are the
text again.
-/

namespace Jobyard.Text

/-- The pieces between the separators, at least one. -/
def splitChars (separator : Char) : List Char → List (List Char)
  | [] => [[]]
  | c :: rest =>
    match splitChars separator rest with
    | [] => [[c]]
    | piece :: pieces =>
      if c = separator then [] :: piece :: pieces else (c :: piece) :: pieces

def split (separator : Char) (s : String) : List String :=
  (splitChars separator s.toList).map String.ofList

end Jobyard.Text
