/-!
# Classes of characters given by runs

A class of code points is a list of lengths: of a run of code points outside of it, of one inside,
and so on in turn.
-/

namespace EbLang.Text

/-- Whether a code point is in the class with the given runs. -/
def inRuns : List Nat → Nat → Bool
  | outside :: inside :: runs, n =>
    decide (outside ≤ n) &&
      (decide (n < outside + inside) || inRuns runs (n - (outside + inside)))
  | _, _ => false

end EbLang.Text
