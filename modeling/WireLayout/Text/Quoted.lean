import WireLayout.Text.Hex
import WireLayout.Text.Printable

/-!
# Quoted — text and bytes between quotation marks

* The mark is an apostrophe, unless the content has an apostrophe and no double mark.
* The mark itself and the backslash are written after a backslash; tab, line feed and carriage
  return by their letters.
* In text every other character stands if it is printable; if not, its code is written with two,
  four or eight hexadecimal digits, whichever is the first that holds it.
* In bytes the ASCII characters from the space to the tilde stand, and all others are written with
  two digits.
-/

namespace WireLayout
namespace Quoted

/-- The apostrophe. -/
def single : Char := Char.ofNat 39

/-- The double quotation mark. -/
def double : Char := Char.ofNat 34

/-- The mark to put around a content. -/
def mark (content : List Char) : Char :=
  if content.contains single && !content.contains double then double else single

/-- Escapes that text and bytes share. -/
def common? (mark c : Char) : Option (List Char) :=
  if c = mark ∨ c = '\\' then some ['\\', c]
  else if c = '\t' then some ['\\', 't']
  else if c = '\n' then some ['\\', 'n']
  else if c = '\r' then some ['\\', 'r']
  else none

/-- The code of a character in two, four or eight digits. -/
def coded (c : Char) : List Char :=
  if c.toNat < 0x100 then '\\' :: 'x' :: Hex.digits 2 c.toNat
  else if c.toNat < 0x10000 then '\\' :: 'u' :: Hex.digits 4 c.toNat
  else '\\' :: 'U' :: Hex.digits 8 c.toNat

/-- A character of quoted text. -/
def textChar (mark c : Char) : List Char :=
  match common? mark c with
  | some cs => cs
  | none => if Printable.isPrintable c then [c] else coded c

/-- A character of quoted bytes. -/
def byteChar (mark c : Char) : List Char :=
  match common? mark c with
  | some cs => cs
  | none => if 0x20 ≤ c.toNat ∧ c.toNat < 0x7f then [c] else coded c

/-- Text between marks. -/
def text (s : String) : String :=
  let cs := s.toList
  let m := mark cs
  String.ofList (m :: cs.flatMap (textChar m) ++ [m])

/-- Bytes between marks, after the letter `b`. -/
def bytes (content : List UInt8) : String :=
  let cs := content.map fun b => Char.ofNat b.toNat
  let m := mark cs
  String.ofList ('b' :: m :: cs.flatMap (byteChar m) ++ [m])

end Quoted
end WireLayout
