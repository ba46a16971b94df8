/-!
# Blank text

A text is blank if every character of it is white space in the sense of Unicode.
-/

namespace Fieldbus.Text

/-- The code points of white space. -/
def blankCodes : List Nat :=
  [0x09, 0x0A, 0x0B, 0x0C, 0x0D, 0x20, 0x85, 0xA0, 0x1680, 0x2000, 0x2001, 0x2002, 0x2003, 0x2004,
    0x2005, 0x2006, 0x2007, 0x2008, 0x2009, 0x200A, 0x2028, 0x2029, 0x202F, 0x205F, 0x3000]

/-- Whether a character is white space. -/
def isBlankChar (c : Char) : Bool := blankCodes.contains c.toNat

/-- Whether a text has nothing but white space. -/
def isBlank (text : String) : Bool := text.toList.all isBlankChar

end Fieldbus.Text
