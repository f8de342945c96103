/-!
Characters and words: blanks, trimming, splitting, and whole numbers written in digits.
-/
namespace BehaviorTree.Text

def blankRanges : List (Nat × Nat) :=
  [(0x9, 0xD), (0x20, 0x20), (0x85, 0x85), (0xA0, 0xA0), (0x1680, 0x1680), (0x2000, 0x200A),
    (0x2028, 0x2029), (0x202F, 0x202F), (0x205F, 0x205F), (0x3000, 0x3000)]

def isBlank (c : Char) : Bool := blankRanges.any fun r => r.1 ≤ c.toNat && c.toNat ≤ r.2

def trimBoth (drop : Char → Bool) (cs : List Char) : List Char :=
  ((cs.dropWhile drop).reverse.dropWhile drop).reverse

def trim (cs : List Char) : List Char := trimBoth isBlank cs

/-- The pieces between the occurrences of a separator; there is always one more piece than
there are separators. -/
def pieces (separator : Char) : List Char → List (List Char)
  | [] => [[]]
  | c :: cs =>
    if c = separator then [] :: pieces separator cs
    else match pieces separator cs with
      | [] => [[c]]
      | piece :: rest => (c :: piece) :: rest

def isDigit (c : Char) : Bool := '0' ≤ c && c ≤ '9'

def isLetter (c : Char) : Bool := ('a' ≤ c && c ≤ 'z') || ('A' ≤ c && c ≤ 'Z')

def digitValue? (base : Nat) (c : Char) : Option Nat :=
  let value :=
    if '0' ≤ c && c ≤ '9' then c.toNat - 48
    else if 'a' ≤ c && c ≤ 'f' then c.toNat - 87
    else if 'A' ≤ c && c ≤ 'F' then c.toNat - 55
    else base
  if value < base then some value else none

def continueNat? (base value : Nat) : List Char → Option Nat
  | [] => some value
  | c :: cs => (digitValue? base c).bind fun d => continueNat? base (value * base + d) cs

def readNat? (base : Nat) (cs : List Char) : Option Nat :=
  if cs.isEmpty then none else continueNat? base 0 cs

def dropPlus : List Char → List Char
  | '+' :: cs => cs
  | cs => cs

def readUnsigned? (base bound : Nat) (cs : List Char) : Option Nat :=
  (readNat? base (dropPlus cs)).filter (· ≤ bound)

def readSigned? (base : Nat) (low high : Int) : List Char → Option Int
  | '-' :: cs => ((readNat? base cs).map fun n => -(n : Int)).filter (low ≤ ·)
  | cs => ((readNat? base (dropPlus cs)).map Int.ofNat).filter (· ≤ high)

def maxUnsigned32 : Nat := Nat.pow 2 32 - 1

def maxUnsigned64 : Nat := Nat.pow 2 64 - 1

def minSigned64 : Int := -(Nat.pow 2 63 : Nat)

def maxSigned64 : Int := (Nat.pow 2 63 : Nat) - 1

def ofNat (n : Nat) : String := String.ofList (Nat.toDigits 10 n)

def ofInt (n : Int) : String := if n < 0 then "-" ++ ofNat n.natAbs else ofNat n.natAbs

def lastDigits (base n : Nat) : Nat → List Char
  | 0 => []
  | width + 1 => lastDigits base (n / base) width ++ [Nat.digitChar (n % base)]

def padded (base width n : Nat) : String := String.ofList (lastDigits base n width)

def join (separator : String) : List String → String
  | [] => ""
  | [s] => s
  | s :: rest => s ++ separator ++ join separator rest

end BehaviorTree.Text
