import Fieldbus.Register.DataType

/-!
# Engineering values

A device value becomes an engineering value by a scale and an offset.  A truth
value is only inverted or left alone.
-/

namespace Fieldbus

/-- The change from a device value to an engineering value. -/
structure Transform where
  scale : Binary64 := .one
  /-- The term added after scaling. -/
  offset : Binary64 := .zero
  /-- Whether truth values are inverted. -/
  reverse : Bool := false
deriving DecidableEq, Repr

namespace Transform

/-- Whether the transform leaves every value alone. -/
def isIdentity (t : Transform) : Bool := t.scale.eq .one && t.offset.eq .zero && !t.reverse

/-- The engineering value of a device value: the product is rounded, then the sum. -/
def apply (t : Transform) (raw : Binary64) (type : DataType) : Binary64 :=
  if type = .bool then DataType.ofBool (!raw.eq .zero != t.reverse)
  else (raw.mul t.scale).add t.offset

/-- Equality of transforms, with the numbers compared as numbers. -/
def agrees (t u : Transform) : Bool :=
  t.scale.eq u.scale && t.offset.eq u.offset && t.reverse == u.reverse

end Transform

end Fieldbus
