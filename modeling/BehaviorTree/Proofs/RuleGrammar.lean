import BehaviorTree.RuleText

/-!
The grammar of rules as they are written. A language says which texts stand for which values. The
languages here are put together from characters, with spaces where the grammar lets them stand, and
know nothing of how a text is read.
-/
namespace BehaviorTree.RuleText

abbrev Language (α : Type) := List Char → α → Prop

variable {α : Type}

def Spaces (cs : List Char) : Prop := ∀ c ∈ cs, isSpace c = true

def Gap (cs : List Char) : Prop := ∀ c ∈ cs, isSpaceOrBreak c = true

def Digits (cs : List Char) : Prop := ∀ c ∈ cs, Text.isDigit c = true

inductive Sign : Language Bool where
  | absent : Sign [] false
  | plus : Sign ['+'] false
  | minus : Sign ['-'] true

/-- Digits with at most one point before, among or after them, told apart by it. -/
inductive Mantissa : Language (List Char × List Char) where
  | whole {ds : List Char} (hdigits : Digits ds) (hsome : ds ≠ []) : Mantissa ds (ds, [])
  | pointed {whole fraction : List Char} (hwhole : Digits whole) (hfraction : Digits fraction)
    (hsome : whole ≠ [] ∨ fraction ≠ []) :
    Mantissa (whole ++ '.' :: fraction) (whole, fraction)

/-- A power of ten; it is zero where it is left out. -/
inductive Power : Language Int where
  | absent : Power [] 0
  | given {letter : Char} {sign ds : List Char} {negative : Bool}
    (hletter : letter = 'e' ∨ letter = 'E') (hsign : Sign sign negative) (hdigits : Digits ds)
    (hsome : ds ≠ []) :
    Power (letter :: (sign ++ ds))
      (if negative then -(Numeral.digitsValue ds : Int) else Numeral.digitsValue ds)

inductive NumberText : Language Double where
  | numeral {sign digits power whole fraction : List Char} {negative : Bool} {exponent : Int}
    (hsign : Sign sign negative) (hdigits : Mantissa digits (whole, fraction))
    (hpower : Power power exponent) :
    NumberText (sign ++ digits ++ power) (Numeral.toDouble ⟨negative, whole, fraction, exponent⟩)
  | notANumber {cs : List Char} (h : Numeral.lower cs = "nan".toList) : NumberText cs .notANumber
  | infinity {cs : List Char} (h : Numeral.lower cs = "inf".toList) :
    NumberText cs (.infinity false)

/-- A number that is finite, whole and not negative, as far up as counts go. -/
inductive CountText : Language Nat where
  | intro {cs : List Char} {x : Double} (h : NumberText cs x) (hwhole : x.isWhole = true)
    (hsign : 0 ≤ x.rank) : CountText cs (x.clamp 0 Text.maxUnsigned64).toNat

/-- Spaces may stand before and after. -/
inductive Spaced (L : Language α) : Language α where
  | intro {lead core trail : List Char} {x : α} (hlead : Spaces lead) (hcore : L core x)
    (htrail : Spaces trail) : Spaced L (lead ++ core ++ trail) x

/-- Two arguments of a kind with a comma between them. -/
inductive PairText (L : Language α) : Language (α × α) where
  | intro {first second : List Char} {x y : α} (hfirst : L first x) (hsecond : L second y) :
    PairText L (first ++ ',' :: second) (x, y)

inductive Bare : Language Scalar where
  | word {cs : List Char} {c : Char} (hfirst : isWordStart c = true)
    (hrest : ∀ d ∈ cs, isWordPart d = true) : Bare (c :: cs) (wordMeaning (c :: cs))
  | number {cs : List Char} {x : Double} (h : NumberText cs x)
    (hfirst : ∀ c ∈ cs.head?, Text.isLetter c = false) :
    Bare cs ((Number.ofDouble? x).elim .null .number)

/-- One of the values of a choice. Around quotes there may be line breaks too. -/
inductive OptionText : Language Scalar where
  | quoted {lead body trail : List Char} (hlead : Gap lead) (hbody : '"' ∉ body)
    (htrail : Gap trail) :
    OptionText (lead ++ '"' :: (body ++ '"' :: trail)) (.text (unescape body))
  | bare {cs : List Char} {v : Scalar} (h : Spaced Bare cs v) : OptionText cs v

/-- At least one option, with commas between them. -/
inductive OptionsText : Language (List Scalar) where
  | last {cs : List Char} {v : Scalar} (h : OptionText cs v) : OptionsText cs [v]
  | more {cs rest : List Char} {v : Scalar} {vs : List Scalar} (h : OptionText cs v)
    (hrest : OptionsText rest vs) : OptionsText (cs ++ ',' :: rest) (v :: vs)

inductive Call (name : String) (L : Language α) : Language α where
  | intro {gap arguments : List Char} {x : α} (hgap : Spaces gap) (h : L arguments x) :
    Call name L (name.toList ++ gap ++ '(' :: (arguments ++ [')'])) x

inductive Written : Language Rule where
  | required : Written "required".toList .required
  | min {cs : List Char} {x : Double} (h : Call "min" (Spaced NumberText) cs x) :
    Written cs (.min x)
  | max {cs : List Char} {x : Double} (h : Call "max" (Spaced NumberText) cs x) :
    Written cs (.max x)
  | range {cs : List Char} {x y : Double}
    (h : Call "range" (PairText (Spaced NumberText)) cs (x, y)) : Written cs (.range x y)
  | length {cs : List Char} {m n : Nat}
    (h : Call "length" (PairText (Spaced CountText)) cs (m, n)) : Written cs (.length m n)
  | oneOf {cs : List Char} {values : List Scalar} (h : Call "one_of" OptionsText cs values) :
    Written cs (.oneOf values)

end BehaviorTree.RuleText
