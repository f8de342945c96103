import BehaviorTree.Proofs.WrittenRules
import Mathlib.Data.List.Infix

/-!
Texts as options. Between quotes a backslash is written twice and a line break as a backslash and
an `n`. What is read is not always what was written: backslashes are joined before line breaks are
made, so a backslash that comes out of the first step takes an `n` after it into the second. A text
with a backslash right before an `n` cannot be written at all.
-/
namespace BehaviorTree.RuleText

variable {c : Char} {cs rest : List Char} {s : String} {v : Scalar}

def escapeChar (c : Char) : List Char :=
  if c = '\\' then ['\\', '\\'] else if c = '\n' then ['\\', 'n'] else [c]

def escape (cs : List Char) : List Char := cs.flatMap escapeChar

def choiceOf (s : String) : String := "one_of(\"" ++ String.ofList (escape s.toList) ++ "\")"

/-- A backslash stands right before an `n`. -/
def SpellsBreak (cs : List Char) : Prop := ['\\', 'n'] <:+: cs

def reread (s : String) : String := String.ofList (breakLines s.toList)

theorem escape_cons (c : Char) (cs : List Char) : escape (c :: cs) = escapeChar c ++ escape cs :=
  List.flatMap_cons

theorem quote_not_mem_escape (h : '"' ∉ cs) : '"' ∉ escape cs := by
  intro hmem
  obtain ⟨c, hc, hquote⟩ := List.mem_flatMap.mp hmem
  unfold escapeChar at hquote
  split_ifs at hquote
  · exact absurd hquote (by decide)
  · exact absurd hquote (by decide)
  · obtain rfl := List.mem_singleton.mp hquote
    exact h hc

theorem joinBackslashes_cons (h : c = '\\' → rest.head? ≠ some '\\') :
    joinBackslashes (c :: rest) = c :: joinBackslashes rest := by
  conv_lhs => unfold joinBackslashes
  split
  · next heq =>
    obtain ⟨rfl, rfl⟩ := List.cons.inj heq
    exact absurd rfl (h rfl)
  · next heq => rw [(List.cons.inj heq).1, (List.cons.inj heq).2]
  · next heq => cases heq

theorem breakLines_cons (h : c = '\\' → rest.head? ≠ some 'n') :
    breakLines (c :: rest) = c :: breakLines rest := by
  conv_lhs => unfold breakLines
  split
  · next heq =>
    obtain ⟨rfl, rfl⟩ := List.cons.inj heq
    exact absurd rfl (h rfl)
  · next heq => rw [(List.cons.inj heq).1, (List.cons.inj heq).2]
  · next heq => cases heq

theorem head?_ne_of_other {d : Char} (h : ∀ rest, c = '\\' → cs = d :: rest → False) :
    c = '\\' → cs.head? ≠ some d := by
  intro hc hd
  obtain ⟨rest, hcs⟩ := List.head?_eq_some_iff.mp hd
  exact h rest hc hcs

def spellBreaks (cs : List Char) : List Char :=
  cs.flatMap fun c => if c = '\n' then ['\\', 'n'] else [c]

theorem spellBreaks_cons (h : c ≠ '\n') (cs : List Char) :
    spellBreaks (c :: cs) = c :: spellBreaks cs := by
  simp [spellBreaks, List.flatMap_cons, h]

/-- Joining the backslashes undoes half of the escaping, and leaves the line breaks. -/
theorem joinBackslashes_escape (cs : List Char) : joinBackslashes (escape cs) = spellBreaks cs := by
  induction cs with
  | nil => rfl
  | cons c cs ih =>
    rw [escape_cons]
    by_cases hbackslash : c = '\\'
    · subst hbackslash
      rw [spellBreaks_cons (by decide), ← ih]
      rfl
    by_cases hbreak : c = '\n'
    · subst hbreak
      have hn : joinBackslashes ('n' :: escape cs) = 'n' :: spellBreaks cs := by
        rw [joinBackslashes_cons fun hn => absurd hn (by decide), ih]
      exact congrArg (List.cons '\\') hn
    · have hsame : escapeChar c = [c] := by simp [escapeChar, hbackslash, hbreak]
      rw [hsame, List.singleton_append, joinBackslashes_cons fun hc => absurd hc hbackslash, ih,
        spellBreaks_cons hbreak]

theorem head?_spellBreaks_ne (h : cs.head? ≠ some 'n') :
    (spellBreaks cs).head? ≠ some 'n' := by
  cases cs with
  | nil => exact h
  | cons c cs =>
    by_cases hbreak : c = '\n'
    · subst hbreak
      simp [spellBreaks, List.flatMap_cons]
    · rwa [spellBreaks_cons hbreak]

/-- Making line breaks finds those that were there before, and the same others besides. -/
theorem breakLines_spellBreaks (cs : List Char) : breakLines (spellBreaks cs) = breakLines cs := by
  induction cs using breakLines.induct with
  | case1 cs ih =>
    rw [spellBreaks_cons (by decide), spellBreaks_cons (by decide), breakLines, breakLines, ih]
  | case2 c cs hother ih =>
    have hcons := head?_ne_of_other hother
    rw [breakLines_cons hcons, ← ih]
    -- A line break is spelled with a backslash first, so it adds no `n` to a backslash before it.
    by_cases hbreak : c = '\n'
    · subst hbreak
      rfl
    · rw [spellBreaks_cons hbreak, breakLines_cons fun hc => head?_spellBreaks_ne (hcons hc)]
  | case3 => rfl

/-- What is escaped and unescaped is read with its spelt line breaks turned into real ones. -/
theorem unescape_escape (s : String) : unescape (escape s.toList) = reread s := by
  rw [unescape, joinBackslashes_escape, breakLines_spellBreaks, reread]

theorem spellsBreak_cons : SpellsBreak (c :: cs) ↔
    c = '\\' ∧ cs.head? = some 'n' ∨ SpellsBreak cs := by
  rw [SpellsBreak, List.infix_cons_iff, List.cons_prefix_cons, SpellsBreak, eq_comm]
  refine or_congr (and_congr_right fun _ => ?_) Iff.rfl
  cases cs with
  | nil => simp
  | cons d cs => simp [List.cons_prefix_cons, eq_comm]

theorem head?_breakLines (h : (breakLines cs).head? = some 'n') : cs.head? = some 'n' := by
  unfold breakLines at h
  split at h
  · exact absurd h (by simp)
  · exact h
  · exact h

/-- No text that is read has a backslash right before an `n`. -/
theorem not_spellsBreak_breakLines (cs : List Char) : ¬ SpellsBreak (breakLines cs) := by
  induction cs using breakLines.induct with
  | case1 cs ih =>
    rw [breakLines, spellsBreak_cons]
    rintro (⟨hbackslash, -⟩ | h)
    · exact absurd hbackslash (by decide)
    · exact ih h
  | case2 c cs hother ih =>
    have hcons := head?_ne_of_other hother
    rw [breakLines_cons hcons, spellsBreak_cons]
    rintro (⟨hbackslash, hn⟩ | h)
    · exact hcons hbackslash (head?_breakLines hn)
    · exact ih h
  | case3 => simp [breakLines, SpellsBreak]

/-- A text in which nothing spells a line break stays as it is. -/
theorem breakLines_eq_self (h : ¬ SpellsBreak cs) : breakLines cs = cs := by
  induction cs with
  | nil => rfl
  | cons c cs ih =>
    rw [spellsBreak_cons, not_or, not_and] at h
    rw [breakLines_cons h.1, ih h.2]

/-- A text is read back as it was unless it spells a line break. -/
theorem reread_eq_self_iff : reread s = s ↔ ¬ SpellsBreak s.toList := by
  constructor
  · intro h
    rw [← h, reread, String.toList_ofList]
    exact not_spellsBreak_breakLines _
  · intro h
    rw [reread, breakLines_eq_self h, String.ofList_toList]

/-- Any text without quotes can be written as a choice and read again. -/
theorem read?_choiceOf (h : '"' ∉ s.toList) :
    read? (choiceOf s) = some (.oneOf [.text (reread s)]) := by
  have hoption : OptionText ([] ++ '"' :: (escape s.toList ++ '"' :: []))
      (.text (unescape (escape s.toList))) :=
    .quoted Spaces.nil.gap (quote_not_mem_escape h) Spaces.nil.gap
  have hwritten := Written.oneOf (.intro Spaces.nil (.last hoption))
  have htext : choiceOf s = String.ofList ("one_of".toList ++ [] ++ '(' ::
      ([] ++ '"' :: (escape s.toList ++ '"' :: []) ++ [')'])) := by
    refine String.toList_injective ?_
    simp [choiceOf, String.toList_append]
  rw [htext, hwritten.read?_eq, unescape_escape]

theorem mem_joinBackslashes (h : c ∈ joinBackslashes cs) : c ∈ cs := by
  induction cs using joinBackslashes.induct with
  | case1 cs ih =>
    rw [joinBackslashes, List.mem_cons] at h
    rcases h with rfl | h
    · exact List.mem_cons_self
    · exact List.mem_cons_of_mem _ (List.mem_cons_of_mem _ (ih h))
  | case2 d cs hother ih =>
    rw [joinBackslashes_cons (head?_ne_of_other hother), List.mem_cons] at h
    rcases h with rfl | h
    · exact List.mem_cons_self
    · exact List.mem_cons_of_mem _ (ih h)
  | case3 => exact h

theorem mem_breakLines (h : c ∈ breakLines cs) : c = '\n' ∨ c ∈ cs := by
  induction cs using breakLines.induct with
  | case1 cs ih =>
    rw [breakLines, List.mem_cons] at h
    rcases h with rfl | h
    · exact Or.inl rfl
    · exact (ih h).imp_right fun hmem => List.mem_cons_of_mem _ (List.mem_cons_of_mem _ hmem)
  | case2 d cs hother ih =>
    rw [breakLines_cons (head?_ne_of_other hother), List.mem_cons] at h
    rcases h with rfl | h
    · exact Or.inr List.mem_cons_self
    · exact (ih h).imp_right (List.mem_cons_of_mem _)
  | case3 => exact Or.inr h

theorem not_spellsBreak_of_word (h : ∀ c ∈ cs, isWordPart c = true) :
    '"' ∉ cs ∧ ¬ SpellsBreak cs := by
  refine ⟨fun hquote => ?_, fun hspells => ?_⟩
  · exact absurd (h _ hquote) (by decide)
  · have hbackslash : '\\' ∈ cs := hspells.subset List.mem_cons_self
    exact absurd (h _ hbackslash) (by decide)

/-- An option without quotes that stands for a text is a word. -/
theorem Bare.word_of_text (h : Bare cs v) (hv : v = .text s) :
    ∀ c ∈ s.toList, isWordPart c = true := by
  cases h with
  | @word cs c hfirst hrest =>
    unfold wordMeaning at hv
    split_ifs at hv
    cases hv
    rw [String.toList_ofList]
    exact List.forall_mem_cons.mpr ⟨isWordPart_of_isWordStart hfirst, hrest⟩
  | @number cs x h hfirst =>
    cases hx : Number.ofDouble? x <;> simp [hx] at hv

/-- No option of the grammar stands for a text that spells a line break. -/
theorem OptionText.not_spellsBreak (h : OptionText cs (.text s)) :
    '"' ∉ s.toList ∧ ¬ SpellsBreak s.toList := by
  cases h with
  | @quoted lead body trail hlead hbody htrail =>
    rw [unescape, String.toList_ofList]
    refine ⟨fun hquote => ?_, not_spellsBreak_breakLines _⟩
    rcases mem_breakLines hquote with hbreak | hjoined
    · exact absurd hbreak (by decide)
    · exact hbody (mem_joinBackslashes hjoined)
  | bare h =>
    obtain @⟨_, _, _, v, hlead, hcore, htrail⟩ := h
    exact not_spellsBreak_of_word (hcore.word_of_text rfl)

/-- The texts that some rule admits as its only option. -/
theorem exists_read?_iff : (∃ source, read? source = some (.oneOf [.text s])) ↔
    '"' ∉ s.toList ∧ ¬ SpellsBreak s.toList := by
  constructor
  · rintro ⟨source, hread⟩
    have hwritten := read?_eq_some_iff_written.mp hread
    generalize Text.trim source.toList = cs at hwritten
    cases hwritten with
    | oneOf h =>
      obtain ⟨-, hoptions⟩ := h
      cases hoptions with
      | last h => exact h.not_spellsBreak
      | more h hrest => cases hrest
  · rintro ⟨hquote, hspells⟩
    refine ⟨choiceOf s, ?_⟩
    rw [read?_choiceOf hquote, reread_eq_self_iff.mpr hspells]

/-- A choice of one text admits that text and no other value. -/
theorem holds_oneOf_text {v : Json} (hv : v ≠ Json.null) :
    (Rule.oneOf [.text s]).holds (some v) = true ↔ v = .leaf (.text s) := by
  simp [Rule.holds, Rule.admits, Rule.matchesOption, hv]

/-- Escaping a text gives a rule whose only option is the text that is read in its place, and that
admits it and nothing else. The option is the text itself exactly if no backslash in it stands right
before an `n`; where one does, there is no rule at all with the text as its only option. -/
theorem read?_escaped (s : String) (h : '"' ∉ s.toList) :
    read? (choiceOf s) = some (.oneOf [.text (reread s)]) ∧
      (read? (choiceOf s) = some (.oneOf [.text s]) ↔ ¬ SpellsBreak s.toList) ∧
      (∀ v, v ≠ Json.null →
        ((Rule.oneOf [.text (reread s)]).holds (some v) = true ↔ v = .leaf (.text (reread s)))) ∧
      ((∃ source, read? source = some (.oneOf [.text s])) ↔ ¬ SpellsBreak s.toList) := by
  have hread := read?_choiceOf h
  refine ⟨hread, ?_, fun v => holds_oneOf_text, ?_⟩
  · simp [hread, reread_eq_self_iff]
  · rw [exists_read?_iff]
    exact and_iff_right h

/-- A folder in a path is read back, as its name does not begin with an `n`. -/
theorem read?_escaped_folder :
    '"' ∉ "c:\\up\n".toList ∧ ¬ SpellsBreak "c:\\up\n".toList ∧
      read? (choiceOf "c:\\up\n") = some (.oneOf [.text "c:\\up\n"]) := by
  have hquote : '"' ∉ "c:\\up\n".toList := by decide
  have hspells : ¬ SpellsBreak "c:\\up\n".toList := by
    unfold SpellsBreak
    decide
  obtain ⟨-, hsame, -, -⟩ := read?_escaped "c:\\up\n" hquote
  exact ⟨hquote, hspells, hsame.mpr hspells⟩

/-- A folder whose name begins with an `n` is not: the rule that is meant to admit the path refuses
it, and admits one with a line break in it. -/
theorem folder_breaks_line :
    '"' ∉ "\\new".toList ∧ choiceOf "\\new" = "one_of(\"\\\\new\")" ∧
      read? (choiceOf "\\new") = some (.oneOf [.text "\new"]) ∧
      (Rule.oneOf [.text "\new"]).holds (some (.leaf (.text "\\new"))) = false ∧
      (Rule.oneOf [.text "\new"]).holds (some (.leaf (.text "\new"))) = true ∧
      ¬ ∀ s : String, '"' ∉ s.toList → read? (choiceOf s) = some (.oneOf [.text s]) := by
  have hquote : '"' ∉ "\\new".toList := by decide
  have hread : read? (choiceOf "\\new") = some (.oneOf [.text "\new"]) := read?_choiceOf hquote
  refine ⟨hquote, rfl, hread, by decide, by decide, fun h => ?_⟩
  have hmeant := hread.symm.trans (h _ hquote)
  exact absurd hmeant (by decide)

end BehaviorTree.RuleText
