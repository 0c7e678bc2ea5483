import EbLang.Text.Runs

/-!
# White space

The 25 code points with the property White_Space, and the trimming of text by them.
-/

namespace EbLang.Text

/-- The code points with the property White_Space. -/
def blankRuns : List Nat :=
  [9, 5, 18, 1, 100, 1, 26, 1, 5599, 1, 2431, 11, 29, 2, 5, 1, 47, 1, 4000, 1]

/-- Whether `c` is white space. -/
def isBlank (c : Char) : Bool := inRuns blankRuns c.toNat

def dropEndWhile (p : Char → Bool) (cs : List Char) : List Char :=
  (cs.reverse.dropWhile p).reverse

/-- The text without white space at its end. -/
def trimEnd (cs : List Char) : List Char := dropEndWhile isBlank cs

/-- The text without white space at either end. -/
def trim (cs : List Char) : List Char := trimEnd (cs.dropWhile isBlank)

end EbLang.Text
