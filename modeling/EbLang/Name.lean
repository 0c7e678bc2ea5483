/-!
# Dotted names

A name is one or several parts with dots between them.  Splitting a name and joining its parts again
gives the name back.
-/

namespace EbLang

/-- The stretches of a text between its dots; there is always at least one. -/
def splitAtDots : List Char → List (List Char)
  | [] => [[]]
  | c :: cs =>
    if c = '.' then [] :: splitAtDots cs
    else
      match splitAtDots cs with
      | [] => [[c]]
      | part :: parts => (c :: part) :: parts

def splitName (name : String) : List String := (splitAtDots name.toList).map String.ofList

def joinName (parts : List String) : String := ".".intercalate parts

/-- Whether a name has several parts. -/
def isQualified (name : String) : Bool := name.toList.contains '.'

end EbLang
