import BehaviorTree.Proofs.RuleGrammar
import Mathlib.Data.List.TakeWhile
import Mathlib.Tactic.SplitIfs

/-!
Numbers at the front of a text. What is taken for a number is one by the grammar, and a number of
the grammar is taken as a whole when a space, a comma or a closing parenthesis comes after it:
none of them can go on with it.
-/
namespace BehaviorTree.RuleText

variable {p : Char → Bool} {c : Char} {cs front text rest : List Char}

def Stops (p : Char → Bool) (cs : List Char) : Prop := ∀ c ∈ cs.head?, p c = false

theorem stops_cons (h : p c = false) : Stops p (c :: cs) := by
  intro d hd
  cases hd
  exact h

/-- The longest front of a kind ends where the text goes on with something else. -/
theorem dropWhile_append_eq (hfront : ∀ c ∈ front, p c = true) (h : Stops p rest) :
    (front ++ rest).dropWhile p = rest := by
  rw [List.dropWhile_append_of_pos hfront]
  cases rest with
  | nil => rfl
  | cons c rest => exact List.dropWhile_cons_of_neg (by simp [h c rfl])

/-- What is taken off the front ends where the characters stop fitting. -/
theorem takeWhile_append_eq (hfront : ∀ c ∈ front, p c = true) (h : Stops p rest) :
    (front ++ rest).takeWhile p = front := by
  have hback := dropWhile_append_eq hfront h
  have hsplit := List.takeWhile_append_dropWhile (p := p) (l := front ++ rest)
  rw [hback] at hsplit
  exact List.append_cancel_right hsplit

/-- Every text divides where the characters stop fitting for the first time. -/
theorem exists_split (p : Char → Bool) (cs : List Char) :
    ∃ front rest, (∀ c ∈ front, p c = true) ∧ Stops p rest ∧ cs = front ++ rest := by
  refine ⟨cs.takeWhile p, cs.dropWhile p, fun _ => List.mem_takeWhile_imp, fun c hc => ?_,
    List.takeWhile_append_dropWhile.symm⟩
  have h := List.head?_dropWhile_not p cs
  rw [Option.mem_def.mp hc] at h
  exact h

def Delimited (cs : List Char) : Prop := ∃ c tail, cs = c :: tail ∧ c ∈ [' ', '\t', ',', ')']

theorem Delimited.stops (h : Delimited cs) (hp : [' ', '\t', ',', ')'].all (!p ·) = true) :
    Stops p cs := by
  obtain ⟨c, tail, rfl, hc⟩ := h
  have hnot := List.all_eq_true.mp hp c hc
  exact stops_cons (by simpa using hnot)

def isSign (c : Char) : Bool := c = '+' || c = '-'

theorem isDigit_iff : Text.isDigit c = true ↔ 48 ≤ c.toNat ∧ c.toNat ≤ 57 := by
  simp only [Text.isDigit, Bool.and_eq_true, decide_eq_true_eq, Char.le_def,
    UInt32.le_iff_toNat_le]
  rfl

theorem isLetter_iff : Text.isLetter c = true ↔
    97 ≤ c.toNat ∧ c.toNat ≤ 122 ∨ 65 ≤ c.toNat ∧ c.toNat ≤ 90 := by
  simp only [Text.isLetter, Bool.or_eq_true, Bool.and_eq_true, decide_eq_true_eq, Char.le_def,
    UInt32.le_iff_toNat_le]
  rfl

theorem isLetter_of_toLower (h : Text.isLetter c.toLower = true) : Text.isLetter c = true := by
  unfold Char.toLower at h
  split at h
  · next hupper =>
    obtain ⟨hlow, hhigh⟩ := hupper
    rw [isLetter_iff]
    exact Or.inr ⟨UInt32.le_iff_toNat_le.mp hlow, UInt32.le_iff_toNat_le.mp hhigh⟩
  · exact h

theorem not_isDigit_of_isLetter (h : Text.isLetter c = true) : Text.isDigit c = false := by
  rw [Bool.eq_false_iff, Ne, isDigit_iff]
  rw [isLetter_iff] at h
  omega

theorem not_isSign (h : Text.isDigit c = true ∨ c = '.' ∨ Text.isLetter c = true) :
    isSign c = false := by
  rw [Bool.eq_false_iff]
  intro hsign
  simp only [isSign, Bool.or_eq_true, decide_eq_true_eq] at hsign
  rcases hsign with rfl | rfl
  all_goals
    revert h
    decide

theorem exists_sign (cs : List Char) :
    ∃ sign, Sign sign (Numeral.splitSign cs).1 ∧ cs = sign ++ (Numeral.splitSign cs).2 := by
  unfold Numeral.splitSign
  split
  · exact ⟨_, .minus, rfl⟩
  · exact ⟨_, .plus, rfl⟩
  · exact ⟨_, .absent, rfl⟩

theorem splitSign_append {negative : Bool} (h : Sign text negative) (hrest : Stops isSign rest) :
    Numeral.splitSign (text ++ rest) = (negative, rest) := by
  cases h with
  | plus => rfl
  | minus => rfl
  | absent =>
    unfold Numeral.splitSign
    rw [List.nil_append]
    split
    · cases hrest _ rfl
    · cases hrest _ rfl
    · rfl

theorem exists_mantissa {whole fraction : List Char}
    (h : Numeral.scanDigits cs = some (whole, fraction, rest)) :
    ∃ text, Mantissa text (whole, fraction) ∧ cs = text ++ rest := by
  obtain ⟨front, back, hfront, hback, rfl⟩ := exists_split Text.isDigit cs
  unfold Numeral.scanDigits at h
  rw [dropWhile_append_eq hfront hback, takeWhile_append_eq hfront hback] at h
  split at h
  · next after =>
    obtain ⟨inner, left, hinner, hleft, rfl⟩ := exists_split Text.isDigit after
    simp only [takeWhile_append_eq hinner hleft, dropWhile_append_eq hinner hleft,
      Option.ite_none_left_eq_some, Option.some.injEq, Prod.mk.injEq] at h
    obtain ⟨hsome, rfl, rfl, rfl⟩ := h
    refine ⟨_, .pointed hfront hinner ?_, by simp⟩
    simpa [Decidable.imp_iff_not_or] using hsome
  · simp only [Option.ite_none_left_eq_some, Option.some.injEq, Prod.mk.injEq] at h
    obtain ⟨hsome, rfl, rfl, rfl⟩ := h
    exact ⟨_, .whole hfront (by simpa using hsome), rfl⟩

/-- Digits of the grammar are taken off, up to whatever else comes. -/
theorem scanDigits_append {whole fraction : List Char} (h : Mantissa text (whole, fraction))
    (hdigit : Stops Text.isDigit rest) (hpoint : Stops (· = '.') rest) :
    Numeral.scanDigits (text ++ rest) = some (whole, fraction, rest) := by
  cases h with
  | whole hdigits hsome =>
    unfold Numeral.scanDigits
    rw [dropWhile_append_eq hdigits hdigit, takeWhile_append_eq hdigits hdigit]
    split
    · exact absurd (hpoint _ rfl) (by decide)
    · simp [hsome]
  | pointed hwhole hfraction hsome =>
    have hstop : Stops Text.isDigit ('.' :: (fraction ++ rest)) := stops_cons (by decide)
    unfold Numeral.scanDigits
    rw [List.append_assoc, List.cons_append, dropWhile_append_eq hwhole hstop,
      takeWhile_append_eq hwhole hstop]
    simp only [takeWhile_append_eq hfraction hdigit, dropWhile_append_eq hfraction hdigit]
    exact if_neg (by simpa [Decidable.imp_iff_not_or] using hsome)

theorem Mantissa.exists_cons {parts : List Char × List Char} (h : Mantissa text parts) :
    ∃ c cs, text = c :: cs ∧ (Text.isDigit c = true ∨ c = '.') := by
  cases h with
  | whole hdigits hsome =>
    cases text with
    | nil => exact absurd rfl hsome
    | cons c cs => exact ⟨c, cs, rfl, Or.inl (hdigits c List.mem_cons_self)⟩
  | @pointed whole fraction hwhole _ _ =>
    cases whole with
    | nil => exact ⟨'.', fraction, rfl, Or.inr rfl⟩
    | cons c whole => exact ⟨c, _, rfl, Or.inl (hwhole c List.mem_cons_self)⟩

theorem exists_power {exponent : Int} (h : Numeral.scanExponent cs = some (exponent, rest)) :
    ∃ text, Power text exponent ∧ cs = text ++ rest := by
  unfold Numeral.scanExponent at h
  split at h
  · cases h
    exact ⟨[], .absent, rfl⟩
  · next c after =>
    split at h
    · next hletter =>
      obtain ⟨sign, hsign, hafter⟩ := exists_sign after
      obtain ⟨digits, left, hdigits, hleft, hsplit⟩ :=
        exists_split Text.isDigit (Numeral.splitSign after).2
      simp only [hsplit, takeWhile_append_eq hdigits hleft, dropWhile_append_eq hdigits hleft,
        Option.ite_none_left_eq_some, Option.some.injEq, Prod.mk.injEq] at h
      obtain ⟨hsome, rfl, rfl⟩ := h
      refine ⟨_, .given hletter hsign hdigits (by simpa using hsome), ?_⟩
      rw [List.cons_append, List.append_assoc, ← hsplit, ← hafter]
    · cases h
      exact ⟨[], .absent, rfl⟩

theorem scanExponent_append {exponent : Int} (h : Power text exponent)
    (hdigit : Stops Text.isDigit rest) (hletter : Stops (fun c => c = 'e' || c = 'E') rest) :
    Numeral.scanExponent (text ++ rest) = some (exponent, rest) := by
  cases h with
  | absent =>
    cases rest with
    | nil => rfl
    | cons c rest =>
      have hc := hletter c rfl
      simp only [Bool.or_eq_false_iff, decide_eq_false_iff_not] at hc
      exact if_neg (not_or.mpr hc)
  | @given letter sign digits _ hgiven hsign hdigits hsome =>
    have hunsigned : Stops isSign (digits ++ rest) := by
      cases digits with
      | nil => exact absurd rfl hsome
      | cons d digits => exact stops_cons (not_isSign (Or.inl (hdigits d List.mem_cons_self)))
    unfold Numeral.scanExponent
    rw [List.cons_append, List.append_assoc]
    simp only [hgiven, splitSign_append hsign hunsigned, takeWhile_append_eq hdigits hdigit,
      dropWhile_append_eq hdigits hdigit]
    simp [hsome]

theorem Power.stops {exponent : Int} (h : Power text exponent) (hrest : Stops p rest)
    (hsmall : p 'e' = false) (hlarge : p 'E' = false) : Stops p (text ++ rest) := by
  cases h with
  | absent => exact hrest
  | given hletter _ _ _ =>
    rcases hletter with rfl | rfl
    · exact stops_cons hsmall
    · exact stops_cons hlarge

theorem exists_numeral {n : Numeral} (h : Numeral.scan cs = .found n rest) :
    ∃ text, NumberText text n.toDouble ∧ cs = text ++ rest := by
  obtain ⟨sign, hsign, hcs⟩ := exists_sign cs
  unfold Numeral.scan at h
  generalize Numeral.splitSign cs = split at h hsign hcs
  obtain ⟨negative, body⟩ := split
  simp only at h hsign hcs
  cases hscan : Numeral.scanDigits body with
  | none => simp [hscan] at h
  | some found =>
    obtain ⟨whole, fraction, after⟩ := found
    obtain ⟨digits, hdigits, hbody⟩ := exists_mantissa hscan
    simp only [hscan] at h
    cases hexponent : Numeral.scanExponent after with
    | none => simp [hexponent] at h
    | some found =>
      obtain ⟨exponent, left⟩ := found
      obtain ⟨power, hpower, hafter⟩ := exists_power hexponent
      simp only [hexponent, Numeral.Scan.found.injEq] at h
      obtain ⟨rfl, rfl⟩ := h
      refine ⟨_, .numeral hsign hdigits hpower, ?_⟩
      rw [List.append_assoc, List.append_assoc, ← hafter, ← hbody]
      exact hcs

theorem scan_append {sign digits power whole fraction : List Char} {negative : Bool}
    {exponent : Int} (hsign : Sign sign negative) (hdigits : Mantissa digits (whole, fraction))
    (hpower : Power power exponent) (hrest : Delimited rest) :
    Numeral.scan (sign ++ digits ++ power ++ rest) =
      .found ⟨negative, whole, fraction, exponent⟩ rest := by
  have hunsigned : Stops isSign (digits ++ (power ++ rest)) := by
    obtain ⟨c, cs, rfl, hc⟩ := hdigits.exists_cons
    exact stops_cons (not_isSign (or_assoc.mp (Or.inl hc)))
  have hdigit : Stops Text.isDigit (power ++ rest) :=
    hpower.stops (hrest.stops (by decide)) (by decide) (by decide)
  have hpoint : Stops (· = '.') (power ++ rest) :=
    hpower.stops (hrest.stops (by decide)) (by decide) (by decide)
  have hexponent : Numeral.scanExponent (power ++ rest) = some (exponent, rest) :=
    scanExponent_append hpower (hrest.stops (by decide)) (hrest.stops (by decide))
  unfold Numeral.scan
  rw [List.append_assoc, List.append_assoc, splitSign_append hsign hunsigned]
  simp only [scanDigits_append hdigits hdigit hpoint, hexponent]

/-- No numeral begins with a letter. -/
theorem scan_of_isLetter (h : Text.isLetter c = true) : Numeral.scan (c :: cs) = .absent := by
  have hnone : ∀ d ∈ ([] : List Char), Text.isDigit d = true := nofun
  have hstop : Stops Text.isDigit (c :: cs) := stops_cons (not_isDigit_of_isLetter h)
  have hsplit : Numeral.splitSign (c :: cs) = (false, c :: cs) :=
    splitSign_append .absent (stops_cons (not_isSign (Or.inr (Or.inr h))))
  have hscan : Numeral.scanDigits (c :: cs) = none := by
    unfold Numeral.scanDigits
    rw [← List.nil_append (c :: cs), dropWhile_append_eq hnone hstop,
      takeWhile_append_eq hnone hstop]
    split
    · next hpoint =>
      rw [(List.cons.inj hpoint).1] at h
      exact absurd h (by decide)
    · rfl
  simp only [Numeral.scan, hsplit, hscan]

def isNumberStart (c : Char) : Bool :=
  isSign c || Text.isDigit c || c = '.' || Text.isLetter c

/-- A word in any case begins with a letter if it does in lower case. -/
theorem exists_letter {word : List Char} (h : Numeral.lower text = c :: word)
    (hc : Text.isLetter c = true) : ∃ d cs, text = d :: cs ∧ Text.isLetter d = true := by
  cases text with
  | nil => cases h
  | cons d cs => exact ⟨d, cs, rfl, isLetter_of_toLower ((List.cons.inj h).1 ▸ hc)⟩

theorem NumberText.exists_cons {x : Double} (h : NumberText text x) :
    ∃ c cs, text = c :: cs ∧ isNumberStart c = true := by
  have hword : ∀ {d : Char} {word : List Char}, Numeral.lower text = d :: word →
      Text.isLetter d = true → ∃ c cs, text = c :: cs ∧ isNumberStart c = true := by
    intro d word hlower hd
    obtain ⟨c, cs, rfl, hc⟩ := exists_letter hlower hd
    exact ⟨c, cs, rfl, by simp [isNumberStart, hc]⟩
  cases h with
  | @numeral sign digits power _ _ _ _ hsign hdigits _ =>
    obtain ⟨c, cs, rfl, hc⟩ := hdigits.exists_cons
    cases hsign with
    | plus => exact ⟨'+', c :: cs ++ power, rfl, rfl⟩
    | minus => exact ⟨'-', c :: cs ++ power, rfl, rfl⟩
    | absent =>
      refine ⟨c, cs ++ power, rfl, ?_⟩
      rcases hc with hc | rfl
      · simp [isNumberStart, hc]
      · rfl
  | notANumber h => exact hword h rfl
  | infinity h => exact hword h rfl

/-- A number that is read is one of the grammar. -/
theorem exists_number {x : Double} (h : number cs = .ok (x, rest)) :
    ∃ text, NumberText text x ∧ cs = text ++ rest := by
  have hsplit := (List.take_append_drop 3 cs).symm
  unfold number at h
  split at h
  · next n left hscan =>
    cases h
    exact exists_numeral hscan
  · cases h
  · simp only at h
    split_ifs at h with hnan hinf
    · cases h
      exact ⟨_, .notANumber hnan, hsplit⟩
    · cases h
      exact ⟨_, .infinity hinf, hsplit⟩

/-- A number of the grammar is read as what it stands for. -/
theorem number_append {x : Double} (h : NumberText text x) (hrest : Delimited rest) :
    number (text ++ rest) = .ok (x, rest) := by
  have hword : ∀ {d e f : Char}, Numeral.lower text = [d, e, f] → Text.isLetter d = true →
      Numeral.scan (text ++ rest) = .absent ∧ (text ++ rest).take 3 = text ∧
        (text ++ rest).drop 3 = rest := by
    intro d e f hlower hd
    have hthree : text.length = 3 := by
      simpa [Numeral.lower] using congrArg List.length hlower
    obtain ⟨c, cs, rfl, hc⟩ := exists_letter hlower hd
    exact ⟨scan_of_isLetter hc, List.take_left' hthree, List.drop_left' hthree⟩
  cases h with
  | numeral hsign hdigits hpower => rw [number, scan_append hsign hdigits hpower hrest]
  | notANumber h =>
    obtain ⟨hscan, hfront, hback⟩ := hword h rfl
    rw [number, hscan, hfront, hback, h]
    rfl
  | infinity h =>
    obtain ⟨hscan, hfront, hback⟩ := hword h rfl
    rw [number, hscan, hfront, hback, h]
    rfl

end BehaviorTree.RuleText
