namespace TopDown

namespace Text

def spaced {α : Type} [ToString α] (xs : List α) : String := " ".intercalate (xs.map toString)

def alignLeft (width : Nat) (s : String) : String := String.ofList (s.toList.rightpad width ' ')

def alignRight (width : Nat) (s : String) : String := String.ofList (s.toList.leftpad width ' ')

/-- Ranges, both ends included, of the code points with the `White_Space` property. -/
def blankRanges : List (Nat × Nat) :=
  [(0x09, 0x0d), (0x20, 0x20), (0x85, 0x85), (0xa0, 0xa0), (0x1680, 0x1680), (0x2000, 0x200a),
   (0x2028, 0x2029), (0x202f, 0x202f), (0x205f, 0x205f), (0x3000, 0x3000)]

def isBlank (c : Char) : Bool :=
  blankRanges.any fun r => r.1 ≤ c.toNat && c.toNat ≤ r.2

inductive NumeralError where
  | empty
  | invalidDigit
  | tooLarge
deriving DecidableEq, Repr

/-- Numbers stay below this. -/
def numeralBound : Nat := UInt64.size

def readDigits (v : Nat) : List Char → Except NumeralError Nat
  | [] => .ok v
  | c :: cs =>
    if c.isDigit then
      let w := 10 * v + (c.toNat - '0'.toNat)
      if w < numeralBound then readDigits w cs else .error .tooLarge
    else .error .invalidDigit

/-- Decimal digits behind at most one plus sign; the first character that cannot be read decides the
error. -/
def readNumeral (s : String) : Except NumeralError Nat :=
  match s.toList with
  | [] => .error .empty
  | ['+'] => .error .invalidDigit
  | '+' :: cs => readDigits 0 cs
  | cs => readDigits 0 cs

/-- Control characters below `U+0020` and from `U+007F` to `U+009F`. -/
def isControl (c : Char) : Bool :=
  c.val < 0x20 || (0x7f ≤ c.val && c.val ≤ 0x9f)

/-- `c` inside a text that `quote` surrounds; a control character without a letter of its own is
written by its code in lower-case hexadecimal. -/
def escape (quote c : Char) : List Char :=
  if c = '\\' ∨ c = quote then ['\\', c]
  else if c = '\n' then ['\\', 'n']
  else if c = '\t' then ['\\', 't']
  else if c = '\r' then ['\\', 'r']
  else if c = '\x00' then ['\\', '0']
  else if isControl c then ['\\', 'u', '\x7b'] ++ Nat.toDigits 16 c.toNat ++ ['\x7d']
  else [c]

def quoteWith (quote : Char) (cs : List Char) : String :=
  String.ofList (quote :: cs.flatMap (escape quote) ++ [quote])

end Text

class Quoted (α : Type) where
  quoted : α → String

instance : Quoted Char := ⟨fun c => Text.quoteWith '\'' [c]⟩

instance : Quoted String := ⟨fun s => Text.quoteWith '"' s.toList⟩

end TopDown
