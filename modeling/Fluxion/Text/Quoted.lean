import Fluxion.Text.Hidden

/-!
Quoted names: between double quotes, with an escape for the quote, the backslash and every character that
has no visible form.
-/
set_option autoImplicit false

namespace Fluxion.Text

def escape (c : Char) : List Char :=
  if c = '"' then ['\\','"']
  else if c = '\\' then ['\\','\\']
  else if c = '\n' then ['\\','n']
  else if c = '\r' then ['\\','r']
  else if c = '\t' then ['\\','t']
  else if c.toNat = 0 then ['\\','0']
  else if isHidden c then ['\\','u','\x7b'] ++ Nat.toDigits 16 c.toNat ++ ['\x7d']
  else [c]

def quoted (s : String) : String := String.ofList ('"' :: s.toList.flatMap escape ++ ['"'])

end Fluxion.Text
