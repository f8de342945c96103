import BehaviorTree.Text

/-!
Versions of documents: three whole numbers of 32 bits, compared as numbers from the first to the
last. In a text they stand between dots, with blanks around the whole.
-/
namespace BehaviorTree

structure Version where
  major : Nat
  minor : Nat
  patch : Nat
  deriving DecidableEq, Inhabited

namespace Version

def current : Version := ⟨1, 1, 0⟩

def legacy : Version := ⟨1, 0, 0⟩

def compare (v w : Version) : Ordering :=
  (Ord.compare v.major w.major).then <|
    (Ord.compare v.minor w.minor).then (Ord.compare v.patch w.patch)

def isAfter (v w : Version) : Bool := compare v w == .gt

def render (v : Version) : String :=
  Text.ofNat v.major ++ "." ++ Text.ofNat v.minor ++ "." ++ Text.ofNat v.patch

def readPart? (cs : List Char) : Option Nat := Text.readUnsigned? 10 Text.maxUnsigned32 cs

def read? (text : String) : Option Version :=
  match Text.pieces '.' (Text.trim text.toList) with
  | [a, b, c] => do
    let major ← readPart? a
    let minor ← readPart? b
    let patch ← readPart? c
    return ⟨major, minor, patch⟩
  | _ => none

def insertSorted (v : Version) : List Version → List Version
  | [] => [v]
  | w :: rest => if isAfter v w then w :: insertSorted v rest else v :: w :: rest

def sort (vs : List Version) : List Version := vs.foldr insertSorted []

end Version

end BehaviorTree
