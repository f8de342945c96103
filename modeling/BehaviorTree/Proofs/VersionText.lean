import BehaviorTree.Proofs.Admission
import BehaviorTree.Proofs.WrittenRules

/-!
Versions as they are written. A text is read as a version if it is three numbers with dots between
them, the blanks around it aside, and is reported as it stands if not. What is written for a version
is read as that version. Two versions are compared as numbers: neither the spelling of a number nor
the order of the texts has a say in which documents are too new.
-/
namespace BehaviorTree

namespace Text

variable {c : Char} {cs : List Char} {n : ℕ}

theorem pieces_eq_splitOn (separator : Char) (cs : List Char) :
    pieces separator cs = cs.splitOn separator := by
  induction cs with
  | nil => exact (List.splitOn_nil separator).symm
  | cons c cs ih =>
    rw [pieces, ih, List.splitOn_cons_eq_if_modifyHead]
    simp only [beq_iff_eq]
    split
    · rfl
    · cases hpieces : cs.splitOn separator with
      | nil => exact absurd hpieces (List.splitOn_ne_nil separator cs)
      | cons piece rest => rfl

theorem isBlank_eq_false_of_isDigit (h : isDigit c = true) : isBlank c = false := by
  rw [RuleText.isDigit_iff] at h
  rw [Bool.eq_false_iff]
  intro hblank
  simp only [isBlank, blankRanges, List.any_eq_true, List.mem_cons, List.not_mem_nil, or_false,
    Bool.and_eq_true, decide_eq_true_eq] at hblank
  obtain ⟨range, hrange, hlow, hhigh⟩ := hblank
  rcases hrange with rfl | rfl | rfl | rfl | rfl | rfl | rfl | rfl | rfl | rfl <;> omega

/-- Around what trimming leaves there have been blanks. -/
theorem exists_trim (cs : List Char) : ∃ lead trail, (∀ c ∈ lead, isBlank c = true) ∧
    (∀ c ∈ trail, isBlank c = true) ∧ cs = lead ++ trim cs ++ trail := by
  obtain ⟨lead, text, hlead, htext, rfl⟩ := RuleText.exists_split isBlank cs
  obtain ⟨trail, back, htrail, hback, hsplit⟩ := RuleText.exists_split isBlank text.reverse
  have htrim : trim (lead ++ text) = back.reverse := by
    rw [trim, trimBoth, RuleText.dropWhile_append_eq hlead htext, hsplit,
      RuleText.dropWhile_append_eq htrail hback]
  have hwhole : text = back.reverse ++ trail.reverse := by
    rw [← List.reverse_append, ← hsplit, List.reverse_reverse]
  refine ⟨lead, trail.reverse, hlead, by simpa using htrail, ?_⟩
  rw [htrim, List.append_assoc, ← hwhole]

theorem le_iff_toNat_le {c d : Char} : c ≤ d ↔ c.toNat ≤ d.toNat := by
  rw [Char.le_def, UInt32.le_iff_toNat_le]
  rfl

/-- A digit of base ten is its distance from zero; a letter stands for ten or more. -/
theorem digitValue?_eq_some_iff :
    digitValue? 10 c = some n ↔ isDigit c = true ∧ n = c.toNat - '0'.toNat := by
  have hzero : '0'.toNat = 48 := rfl
  have hnine : '9'.toNat = 57 := rfl
  have hsmall : 'a'.toNat = 97 := rfl
  have hlarge : 'A'.toNat = 65 := rfl
  simp only [digitValue?, RuleText.isDigit_iff, le_iff_toNat_le, Bool.and_eq_true,
    decide_eq_true_eq, hzero, hnine, hsmall, hlarge]
  split_ifs
  all_goals
    simp only [Option.some_inj, false_iff]
    omega

/-- Digits are read as the number that they are in base ten. -/
theorem continueNat?_eq_some_iff {value : ℕ} : continueNat? 10 value cs = some n ↔
    RuleText.Digits cs ∧ n = Nat.ofDigitChars 10 cs value := by
  induction cs generalizing value with
  | nil =>
    rw [continueNat?, Option.some_inj, Nat.ofDigitChars_nil]
    exact ⟨fun h => ⟨nofun, h.symm⟩, fun h => h.2.symm⟩
  | cons c cs ih =>
    rw [continueNat?, Option.bind_eq_some_iff, Nat.ofDigitChars_cons, RuleText.Digits,
      List.forall_mem_cons]
    simp only [digitValue?_eq_some_iff, ih, Nat.mul_comm value 10]
    constructor
    · rintro ⟨d, ⟨hc, rfl⟩, hcs, hn⟩
      exact ⟨⟨hc, hcs⟩, hn⟩
    · rintro ⟨⟨hc, hcs⟩, hn⟩
      exact ⟨_, ⟨hc, rfl⟩, hcs, hn⟩

/-- Digits are read as the number that they denote in base ten. -/
theorem readNat?_eq_some_iff : readNat? 10 cs = some n ↔
    cs ≠ [] ∧ RuleText.Digits cs ∧ n = Nat.ofDigitChars 10 cs 0 := by
  unfold readNat?
  cases cs with
  | nil => simp
  | cons c cs =>
    rw [if_neg (by simp), continueNat?_eq_some_iff]
    simp

theorem readUnsigned?_eq_some_iff {bound : ℕ} : readUnsigned? 10 bound cs = some n ↔
    readNat? 10 (dropPlus cs) = some n ∧ n ≤ bound := by
  rw [readUnsigned?, Option.filter_eq_some_iff, decide_eq_true_eq]

end Text

namespace Version

open RuleText (Digits)

variable {v w : Version} {s : String} {cs text : List Char} {n : ℕ}

/-- A number of 32 bits in decimal digits, with zeros in front if one likes and after one plus sign
if there is any. -/
inductive PartText : RuleText.Language ℕ where
  | intro {sign digits : List Char} (hsign : sign = [] ∨ sign = ['+']) (hdigits : Digits digits)
    (hsome : digits ≠ []) (hbound : Nat.ofDigitChars 10 digits 0 ≤ Text.maxUnsigned32) :
    PartText (sign ++ digits) (Nat.ofDigitChars 10 digits 0)

/-- Three numbers with dots between them and blanks around the whole. -/
inductive Written : RuleText.Language Version where
  | intro {lead a b c trail : List Char} {major minor patch : ℕ}
    (hlead : ∀ c ∈ lead, Text.isBlank c = true) (hmajor : PartText a major)
    (hminor : PartText b minor) (hpatch : PartText c patch)
    (htrail : ∀ c ∈ trail, Text.isBlank c = true) :
    Written (lead ++ ['.'].intercalate [a, b, c] ++ trail) ⟨major, minor, patch⟩

theorem PartText.forall_mem (h : PartText text n) :
    ∀ c ∈ text, Text.isBlank c = false ∧ c ≠ '.' := by
  obtain ⟨hsign, hdigits, -, -⟩ := h
  intro c hc
  rcases List.mem_append.mp hc with hc | hc
  · rcases hsign with rfl | rfl
    · cases hc
    · obtain rfl := List.mem_singleton.mp hc
      decide
  · refine ⟨Text.isBlank_eq_false_of_isDigit (hdigits c hc), ?_⟩
    rintro rfl
    exact absurd (hdigits '.' hc) (by decide)

theorem dropPlus_append {sign digits : List Char} (hsign : sign = [] ∨ sign = ['+'])
    (hdigits : Digits digits) : Text.dropPlus (sign ++ digits) = digits := by
  rcases hsign with rfl | rfl
  · rw [List.nil_append]
    unfold Text.dropPlus
    split
    · exact absurd (hdigits '+' List.mem_cons_self) (by decide)
    · rfl
  · rfl

theorem exists_sign_dropPlus (cs : List Char) :
    ∃ sign, (sign = [] ∨ sign = ['+']) ∧ cs = sign ++ Text.dropPlus cs := by
  unfold Text.dropPlus
  split
  · exact ⟨['+'], Or.inr rfl, rfl⟩
  · exact ⟨[], Or.inl rfl, rfl⟩

/-- What is taken for a part is one by the grammar. -/
theorem readPart?_eq_some_iff : readPart? cs = some n ↔ PartText cs n := by
  rw [readPart?, Text.readUnsigned?_eq_some_iff, Text.readNat?_eq_some_iff]
  constructor
  · rintro ⟨⟨hsome, hdigits, rfl⟩, hbound⟩
    obtain ⟨sign, hsign, hcs⟩ := exists_sign_dropPlus cs
    have hpart := PartText.intro hsign hdigits hsome hbound
    rwa [← hcs] at hpart
  · rintro ⟨hsign, hdigits, hsome, hbound⟩
    rw [dropPlus_append hsign hdigits]
    exact ⟨⟨hsome, hdigits, rfl⟩, hbound⟩

theorem read?_eq_some_iff_pieces : read? s = some v ↔
    ∃ a b c, Text.pieces '.' (Text.trim s.toList) = [a, b, c] ∧
      readPart? a = some v.major ∧ readPart? b = some v.minor ∧ readPart? c = some v.patch := by
  unfold read?
  split
  next a b c hpieces =>
    simp only [Option.bind_eq_bind, Option.bind_eq_some_iff, Option.pure_def, Option.some_inj]
    constructor
    · rintro ⟨major, hmajor, minor, hminor, patch, hpatch, rfl⟩
      exact ⟨a, b, c, hpieces, hmajor, hminor, hpatch⟩
    · rintro ⟨a', b', c', hpieces', hmajor, hminor, hpatch⟩
      obtain ⟨rfl, rfl, rfl⟩ : a = a' ∧ b = b' ∧ c = c' := by
        simpa using hpieces.symm.trans hpieces'
      exact ⟨v.major, hmajor, v.minor, hminor, v.patch, hpatch, rfl⟩
  next hpieces =>
    simp only [reduceCtorEq, false_iff]
    rintro ⟨a, b, c, h, -⟩
    exact hpieces a b c h

theorem forall_mem_joined {a b c : List Char}
    (h : ∀ part ∈ [a, b, c], ∀ d ∈ part, Text.isBlank d = false) :
    ∀ d ∈ ['.'].intercalate [a, b, c], Text.isBlank d = false := by
  intro d hd
  simp only [List.intercalate_cons_cons, List.intercalate_singleton, List.mem_append,
    List.mem_singleton] at hd
  rcases hd with (hd | rfl) | (hd | rfl) | hd
  · exact h a (by simp) d hd
  · rfl
  · exact h b (by simp) d hd
  · rfl
  · exact h c (by simp) d hd

/-- Parts without dots and blanks are found again, whatever blanks there are around the whole. -/
theorem pieces_trim_joined {lead a b c trail : List Char}
    (hlead : ∀ c ∈ lead, Text.isBlank c = true) (htrail : ∀ c ∈ trail, Text.isBlank c = true)
    (hparts : ∀ part ∈ [a, b, c], ∀ d ∈ part, Text.isBlank d = false ∧ d ≠ '.') :
    Text.pieces '.' (Text.trim (lead ++ ['.'].intercalate [a, b, c] ++ trail)) = [a, b, c] := by
  have hsolid : ∀ d ∈ ['.'].intercalate [a, b, c], Text.isBlank d = false :=
    forall_mem_joined fun part hpart d hd => (hparts part hpart d hd).1
  have htrim : Text.trim (lead ++ ['.'].intercalate [a, b, c] ++ trail) =
      ['.'].intercalate [a, b, c] :=
    RuleText.trim_append hlead htrail (by simp) (fun d hd => hsolid d (List.mem_of_mem_head? hd))
      fun d hd => hsolid d (List.mem_reverse.mp (List.mem_of_mem_head? hd))
  rw [htrim, Text.pieces_eq_splitOn]
  apply List.splitOn_intercalate '.' _ (List.cons_ne_nil _ _)
  intro part hpart hdot
  exact (hparts part hpart _ hdot).2 rfl

/-- A text is read as the version that it is by the grammar. -/
theorem read?_eq_some_iff_written : read? s = some v ↔ Written s.toList v := by
  rw [read?_eq_some_iff_pieces]
  constructor
  · rintro ⟨a, b, c, hpieces, hmajor, hminor, hpatch⟩
    obtain ⟨lead, trail, hlead, htrail, hs⟩ := Text.exists_trim s.toList
    have hjoined : ['.'].intercalate [a, b, c] = Text.trim s.toList := by
      rw [← hpieces, Text.pieces_eq_splitOn, List.intercalate_splitOn]
    rw [hs, ← hjoined]
    exact .intro hlead (readPart?_eq_some_iff.mp hmajor) (readPart?_eq_some_iff.mp hminor)
      (readPart?_eq_some_iff.mp hpatch) htrail
  · intro h
    generalize hs : s.toList = cs at h
    obtain @⟨lead, a, b, c, trail, major, minor, patch, hlead, hmajor, hminor, hpatch, htrail⟩ := h
    have hparts : ∀ part ∈ [a, b, c], ∀ d ∈ part, Text.isBlank d = false ∧ d ≠ '.' := by
      simp only [List.forall_mem_cons, List.not_mem_nil, false_imp_iff, implies_true, and_true]
      exact ⟨hmajor.forall_mem, hminor.forall_mem, hpatch.forall_mem⟩
    exact ⟨a, b, c, pieces_trim_joined hlead htrail hparts, readPart?_eq_some_iff.mpr hmajor,
      readPart?_eq_some_iff.mpr hminor, readPart?_eq_some_iff.mpr hpatch⟩

structure Fits (v : Version) : Prop where
  major : v.major ≤ Text.maxUnsigned32
  minor : v.minor ≤ Text.maxUnsigned32
  patch : v.patch ≤ Text.maxUnsigned32

theorem partText_toDigits (h : n ≤ Text.maxUnsigned32) : PartText (Nat.toDigits 10 n) n := by
  have hdigits : Digits (Nat.toDigits 10 n) := fun c hc =>
    Nat.isDigit_of_mem_toDigits (by decide) (by decide) hc
  have hvalue : Nat.ofDigitChars 10 (Nat.toDigits 10 n) 0 = n := Nat.ofDigitChars_ten_toDigits
  have hpart := PartText.intro (Or.inl rfl) hdigits Nat.toDigits_ne_nil (hvalue.symm ▸ h)
  rwa [List.nil_append, hvalue] at hpart

/-- What is rendered of a version is a text of the grammar. -/
theorem Fits.written_render (h : v.Fits) : Written v.render.toList v := by
  have htext : v.render.toList = [] ++ ['.'].intercalate
      [Nat.toDigits 10 v.major, Nat.toDigits 10 v.minor, Nat.toDigits 10 v.patch] ++ [] := by
    simp [render, Text.ofNat, List.intercalate_cons_cons]
  rw [htext]
  exact .intro nofun (partText_toDigits h.major) (partText_toDigits h.minor)
    (partText_toDigits h.patch) nofun

end Version

namespace Migration

variable {s : String} {v found supported : Version} {doc : Json} {e : MigrationError}

/-- The texts of the grammar are read, as the versions that they stand for. -/
theorem parseVersion_eq_ok_iff : parseVersion s = .ok v ↔ Version.Written s.toList v := by
  rw [← Version.read?_eq_some_iff_written]
  unfold parseVersion
  split
  next w hread => rw [hread, Except.ok.injEq, Option.some_inj]
  next hread => rw [hread]; simp

theorem parseVersion_eq_error_iff : parseVersion s = .error e ↔
    (∀ v, ¬ Version.Written s.toList v) ∧ e = .malformedVersion s := by
  simp only [← Version.read?_eq_some_iff_written, ← Option.eq_none_iff_forall_ne_some]
  unfold parseVersion
  split
  next w hread => simp [hread]
  next hread => simp [hread, eq_comm]

theorem exists_malformed_of_statedVersion {d : Dict Json} (h : statedVersion d = .error e) :
    ∃ text, e = .malformedVersion text := by
  unfold statedVersion at h
  split at h
  · cases h
  · cases h
  next text _ => exact ⟨text, (parseVersion_eq_error_iff.mp h).2⟩
  · cases h
    exact ⟨_, rfl⟩

/-- A document is refused as too new if its version comes after the current one. -/
theorem migrate_unsupported_iff : migrate doc = .error (.unsupportedVersion found supported) ↔
    supported = .current ∧ (∃ d, doc.fields? = some d ∧ States d found) ∧
      Version.current < found := by
  constructor
  · intro h
    cases hfields : doc.fields? with
    | none => simp [migrate, hfields] at h
    | some d =>
      cases hstated : statedVersion d with
      | error e =>
        obtain ⟨text, rfl⟩ := exists_malformed_of_statedVersion hstated
        cases (migrate_of_stated_error hfields hstated).symm.trans h
      | ok v =>
        cases hafter : v.isAfter .current with
        | true =>
          cases (migrate_of_after hfields hstated hafter).symm.trans h
          exact ⟨rfl, ⟨d, rfl, statedVersion_eq_ok_iff.mp hstated⟩,
            (Version.isAfter_iff _ _).mp hafter⟩
        | false => cases (migrate_of_fields hfields hstated hafter).symm.trans h
  · rintro ⟨rfl, ⟨d, hfields, hstates⟩, hlater⟩
    exact migrate_of_after hfields (statedVersion_eq_ok_iff.mpr hstates)
      ((found.isAfter_iff _).mpr hlater)

def dated (text : String) : Json := Json.ofDict (.ofList [("version", Json.text text)])

theorem states_dated (h : Version.read? s = some v) :
    ∃ d, (dated s).fields? = some d ∧ States d v :=
  ⟨_, rfl, .text rfl h⟩

/-- A text comes before the current version, and another one after it, and yet the first one is
newer and the second one is not. -/
theorem exists_texts_out_of_order : ∃ early late : String,
    early < Version.current.render ∧ Version.current.render < late ∧
      (∃ found, migrate (dated early) = .error (.unsupportedVersion found .current)) ∧
      ∃ doc, migrate (dated late) = .ok doc := by
  refine ⟨"01.2.0", "1.1.00", by decide +kernel, by decide +kernel, ⟨⟨1, 2, 0⟩, ?_⟩, ?_⟩
  · exact migrate_unsupported_iff.mpr ⟨rfl, states_dated (by decide +kernel), by decide⟩
  · obtain ⟨d, hfields, hstates⟩ : ∃ d, (dated "1.1.00").fields? = some d ∧ States d .current :=
      states_dated (by decide +kernel)
    exact ⟨_, migrate_of_fields hfields (statedVersion_eq_ok_iff.mpr hstates) (by decide)⟩

/-- A text is read as a version if it is one by the grammar, and only then; any other text is
reported as it stands. What is written for a version is read as that version. Of two versions the
first number that differs decides which is later, and a document is refused as too new if its
version is later than the current one: how the texts compare does not matter. -/
theorem versions_read_and_compared :
    (∀ s v, parseVersion s = .ok v ↔ Version.Written s.toList v) ∧
      (∀ s e, parseVersion s = .error e ↔
        (∀ v, ¬ Version.Written s.toList v) ∧ e = .malformedVersion s) ∧
      (∀ v : Version, v.Fits → parseVersion v.render = .ok v) ∧
      (∀ v w : Version, v.isAfter w = true ↔ w.rank < v.rank) ∧
      (∀ doc found supported, migrate doc = .error (.unsupportedVersion found supported) ↔
        supported = .current ∧ (∃ d, doc.fields? = some d ∧ States d found) ∧
          Version.current.rank < found.rank) ∧
      (∃ v w : Version, v.isAfter w = true ∧ v.render < w.render) ∧
      ∃ early late : String,
        early < Version.current.render ∧ Version.current.render < late ∧
          (∃ found, migrate (dated early) = .error (.unsupportedVersion found .current)) ∧
          ∃ doc, migrate (dated late) = .ok doc := by
  refine ⟨fun s v => parseVersion_eq_ok_iff, fun s e => parseVersion_eq_error_iff,
    fun v hfits => parseVersion_eq_ok_iff.mpr hfits.written_render, Version.isAfter_iff,
    fun doc found supported => migrate_unsupported_iff, ⟨⟨1, 10, 0⟩, ⟨1, 9, 0⟩, ?_, ?_⟩,
    exists_texts_out_of_order⟩
  · decide
  · decide +kernel

/-- The last number is as large as it can be. -/
theorem versions_read_and_compared_at_bound :
    (⟨1, 10, 4294967295⟩ : Version).Fits ∧
      parseVersion (Version.render ⟨1, 10, 4294967295⟩) = .ok ⟨1, 10, 4294967295⟩ := by
  have hfits : (⟨1, 10, 4294967295⟩ : Version).Fits := ⟨by decide, by decide, by decide⟩
  exact ⟨hfits, versions_read_and_compared.2.2.1 _ hfits⟩

end Migration

end BehaviorTree
