import Reckoner.Text.Bytes

/-! The blank characters of Unicode (the property White_Space) and trimming. Trimming removes blanks
only, and what is left does not start with one. -/
namespace Reckoner.Text

/-- The code points with the property White_Space. -/
def blanks : List Nat :=
  [0x09, 0x0A, 0x0B, 0x0C, 0x0D, 0x20, 0x85, 0xA0, 0x1680, 0x2000, 0x2001, 0x2002, 0x2003, 0x2004, 0x2005,
    0x2006, 0x2007, 0x2008, 0x2009, 0x200A, 0x2028, 0x2029, 0x202F, 0x205F, 0x3000]

def isBlank (c : Char) : Bool := blanks.contains c.toNat

def trimStart (t : Text) : Text := t.dropWhile isBlank

def trimEnd (t : Text) : Text := (t.reverse.dropWhile isBlank).reverse

def trim (t : Text) : Text := trimEnd (trimStart t)

def leadingBlank (t : Text) : Nat := byteLength (t.takeWhile isBlank)

def firstWord (t : Text) : Text := (trimStart t).takeWhile (!isBlank ·)

theorem takeWhile_append_trimStart (t : Text) : t.takeWhile isBlank ++ trimStart t = t :=
  List.takeWhile_append_dropWhile

end Reckoner.Text
