import NetRider.Lib.Bytes

/-!
# Bytes in hexadecimal

The digits are the bytes of their characters. A `char` is taken for its byte: the code only
compares it with ASCII characters and masks what it shifts.
-/

namespace NetRider.Wtf.HexNumber

open NetRider.Lib

def isASCIIDigit (c : UInt8) : Bool := c ≥ 0x30 && c ≤ 0x39

def isASCIIHexDigit (c : UInt8) : Bool := isASCIIDigit c || (c ||| 0x20 ≥ 0x61 && c ||| 0x20 ≤ 0x66)

def upperHexDigits : List UInt8 :=
  [0x30, 0x31, 0x32, 0x33, 0x34, 0x35, 0x36, 0x37, 0x38, 0x39, 0x41, 0x42, 0x43, 0x44, 0x45, 0x46]

/-- What `appendByteAsHex` appends, in upper case. -/
def appendByteAsHex (byte : UInt8) : List UInt8 :=
  [upperHexDigits.getD (byte >>> 4).toNat 0, upperHexDigits.getD (byte &&& 0xF).toNat 0]

def lowerNibbleToASCIIHexDigit (c : UInt8) : UInt8 :=
  let nibble := c &&& 0xF
  if nibble < 10 then 0x30 + nibble else 0x41 + nibble - 10

def upperNibbleToASCIIHexDigit (c : UInt8) : UInt8 :=
  let nibble := (c >>> 4) &&& 0xF
  if nibble < 10 then 0x30 + nibble else 0x41 + nibble - 10

def toASCIIHexValue (c : UInt8) : UInt8 := if c < 0x41 then c - 0x30 else (c - 0x41 + 10) &&& 0xF

/-- `toASCIIHexValue` of two digits. -/
def hexByte (upperValue lowerValue : UInt8) : UInt8 :=
  ((toASCIIHexValue upperValue <<< 4) &&& 0xF0) ||| toASCIIHexValue lowerValue

/-- The table and the arithmetic give the same digits. -/
theorem appendByteAsHex_eq (byte : UInt8) :
    appendByteAsHex byte = [upperNibbleToASCIIHexDigit byte, lowerNibbleToASCIIHexDigit byte] := by
  revert byte
  exact forall_byte (by decide)

theorem nibble_isASCIIHexDigit (byte : UInt8) :
    isASCIIHexDigit (upperNibbleToASCIIHexDigit byte) = true ∧
      isASCIIHexDigit (lowerNibbleToASCIIHexDigit byte) = true := by
  revert byte
  exact forall_byte (by decide)

/-- **The digits of a byte denote the byte.** -/
theorem hexByte_nibbles (byte : UInt8) :
    hexByte (upperNibbleToASCIIHexDigit byte) (lowerNibbleToASCIIHexDigit byte) = byte := by
  revert byte
  exact forall_byte (by decide)

end NetRider.Wtf.HexNumber
