import GraphQL.Number.Whole
import GraphQL.Text.Printable

/-!
Quoted text: a string between double quotes, with escapes for what cannot be shown.

Quote, backslash and the four common controls have escapes of two characters; any other character
outside the printable ones is given by its code point in braces.
-/

namespace GraphQL

/-- One character as it stands between the quotes. -/
def quotedChar (c : Char) : List Char :=
  if c = '\x00' then ['\\', '0']
  else if c = '\t' then ['\\', 't']
  else if c = '\n' then ['\\', 'n']
  else if c = '\r' then ['\\', 'r']
  else if c = '"' then ['\\', '"']
  else if c = '\\' then ['\\', '\\']
  else if isPrintable c then [c]
  else ['\\', 'u', '\x7b'] ++ hexDigits c.toNat ++ ['\x7d']

def quoted (text : String) : String :=
  String.ofList ('"' :: text.toList.flatMap quotedChar ++ ['"'])

end GraphQL
