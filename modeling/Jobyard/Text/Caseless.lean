/-!
Equality of texts up to the case of the letters A to Z. Other letters are compared as they are.
-/

namespace Jobyard.Text

def sameLetters (s t : String) : Bool :=
  s.toList.map Char.toLower == t.toList.map Char.toLower

@[simp] theorem sameLetters_self (s : String) : sameLetters s s = true := by
  simp [sameLetters]

end Jobyard.Text
