import EbLang.Text.Unprintable

/-!
# Quoted text

Messages show names between double quotes.  A quote, a backslash and the control characters that
have a letter are written with a backslash; any other character without a shape of its own is
written by its number in lower-case hexadecimal, `\u{200b}`; everything else stands for itself.
-/

namespace EbLang.Text

def quoteChar (c : Char) : List Char :=
  if c == '"' then ['\\', '"']
  else if c == '\\' then ['\\', '\\']
  else if c == '\n' then ['\\', 'n']
  else if c == '\r' then ['\\', 'r']
  else if c == '\t' then ['\\', 't']
  else if c == '\x00' then ['\\', '0']
  else if isUnprintable c then ['\\', 'u', '\x7b'] ++ Nat.toDigits 16 c.toNat ++ ['\x7d']
  else [c]

/-- The text between double quotes. -/
def quote (s : String) : String :=
  String.ofList ('"' :: (s.toList.flatMap quoteChar ++ ['"']))

end EbLang.Text
