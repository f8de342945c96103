import BehaviorTree.Proofs.NumberReading
import Mathlib.Data.List.DropRight

/-!
Rules at the front of a text. A reader is sound for a language if what it takes off is a text of
that language, and complete if it takes off the whole of such a text. Completeness needs a mark
after the text: a number, a word or a gap goes on as far as it can, and the commas and parentheses
of the grammar are what ends them. So each reader is proved sound and complete together, for the
marks that its callers put after it, and the spaces around an argument go with the argument.
-/
namespace BehaviorTree.RuleText

variable {α β : Type} {reader : Reader α} {L : Language α} {x : α} {v : Scalar} {c : Char}
variable {cs lead text trail tail rest : List Char}

theorem bind_eq_ok_iff {first : Except Refusal β} {next : β → Except Refusal α} :
    (first >>= next) = .ok x ↔ ∃ b, first = .ok b ∧ next b = .ok x := by
  cases first with
  | error e => simp [bind, Except.bind]
  | ok b => simp [bind, Except.bind]

theorem bind_of_ok {first : Except Refusal β} {b : β} (h : first = .ok b)
    (next : β → Except Refusal α) : (first >>= next) = next b := by
  rw [h]
  rfl

/-- What one of two readers reads has been read by the first, or else by the second. -/
theorem ok_of_either {first second : Reader α} (h : either first second cs = .ok (x, rest)) :
    first cs = .ok (x, rest) ∨ first cs = .error .mismatch ∧ second cs = .ok (x, rest) := by
  unfold either at h
  split at h
  · next hfirst => exact Or.inr ⟨hfirst, h⟩
  · exact Or.inl h

theorem either_of_ok {first second : Reader α} (h : first cs = .ok (x, rest)) :
    either first second cs = .ok (x, rest) := by rw [either, h]

theorem either_of_mismatch {first second : Reader α} (h : first cs = .error .mismatch) :
    either first second cs = second cs := by rw [either, h]

theorem Spaces.nil : Spaces [] := nofun

theorem Spaces.append (hlead : Spaces lead) (htrail : Spaces trail) : Spaces (lead ++ trail) :=
  List.forall_mem_append.mpr ⟨hlead, htrail⟩

theorem Spaces.gap (h : Spaces cs) : Gap cs := by
  intro c hc
  have hspace := h c hc
  simp only [isSpace, Bool.or_eq_true, decide_eq_true_eq] at hspace
  rcases hspace with rfl | rfl <;> rfl

theorem Gap.append (hlead : Gap lead) (htrail : Gap trail) : Gap (lead ++ trail) :=
  List.forall_mem_append.mpr ⟨hlead, htrail⟩

theorem skipSpaces_append_eq (hlead : Spaces lead) (h : Stops isSpace rest) :
    skipSpaces (lead ++ rest) = rest := dropWhile_append_eq hlead h

theorem skipSpaces_skipSpaces (cs : List Char) : skipSpaces (skipSpaces cs) = skipSpaces cs :=
  List.dropWhile_idempotent isSpace cs

theorem exists_spaces (cs : List Char) : ∃ lead, Spaces lead ∧ cs = lead ++ skipSpaces cs := by
  obtain ⟨lead, rest, hlead, hrest, rfl⟩ := exists_split isSpace cs
  exact ⟨lead, hlead, by rw [skipSpaces_append_eq hlead hrest]⟩

theorem delimited_of_spaces (htrail : Spaces trail) (hc : c ∈ [',', ')']) (tail : List Char) :
    Delimited (trail ++ c :: tail) := by
  cases trail with
  | nil => exact ⟨c, tail, rfl, List.mem_cons_of_mem _ (List.mem_cons_of_mem _ hc)⟩
  | cons d trail =>
    have hd : d = ' ' ∨ d = '\t' := by simpa [isSpace] using htrail d List.mem_cons_self
    exact ⟨d, trail ++ c :: tail, rfl, by rcases hd with rfl | rfl <;> decide⟩

theorem skipSpaces_before_mark (htrail : Spaces trail) (hc : c ∈ [',', ')'])
    (tail : List Char) : skipSpaces (trail ++ c :: tail) = c :: tail := by
  have hspace : ∀ c ∈ [',', ')'], isSpace c = false := by simp [isSpace]
  exact skipSpaces_append_eq htrail (stops_cons (hspace c hc))

theorem mark_eq_ok_iff (hc : isSpace c = false) : mark c cs = .ok ((), rest) ↔
    ∃ gap tail, Spaces gap ∧ cs = gap ++ c :: tail ∧ rest = skipSpaces tail := by
  constructor
  · intro h
    obtain ⟨gap, hgap, hcs⟩ := exists_spaces cs
    unfold mark at h
    split at h
    · next d after hafter =>
      split_ifs at h with hd
      cases h
      exact ⟨gap, after, hgap, by rw [hcs, hafter, hd], rfl⟩
    · cases h
  · rintro ⟨gap, tail, hgap, rfl, rfl⟩
    have hfront : skipSpaces (gap ++ c :: tail) = c :: tail :=
      skipSpaces_append_eq hgap (stops_cons hc)
    simp [mark, hfront]

theorem mark_of_ne {d : Char} (hd : isSpace d = false) (hne : d ≠ c) :
    mark c (d :: tail) = .error .mismatch := by
  have hfront : skipSpaces (d :: tail) = d :: tail := skipSpaces_append_eq .nil (stops_cons hd)
  simp [mark, hfront, hne]

/-- A reader of arguments takes off texts of a language. It takes off all of such a text when one
of some marks comes after it. The spaces around an argument belong to it. -/
structure Reads (reader : Reader α) (L : Language α) (marks : List Char) : Prop where
  sound {cs rest : List Char} {x : α} (h : reader cs = .ok (x, rest)) :
    ∃ text, L text x ∧ cs = text ++ rest
  complete {text : List Char} {x : α} {c : Char} (h : L text x) (hc : c ∈ marks)
    (tail : List Char) : reader (text ++ c :: tail) = .ok (x, c :: tail)
  padded {text trail : List Char} {x : α} (h : L text x) (htrail : Spaces trail) :
    L (text ++ trail) x
  skips (cs : List Char) : reader (skipSpaces cs) = reader cs

theorem Spaced.padded (hlead : Spaces lead) (h : Spaced L text x) (htrail : Spaces trail) :
    Spaced L (lead ++ text ++ trail) x := by
  obtain ⟨hfront, hcore, hback⟩ := h
  have hspaced := Spaced.intro (hlead.append hfront) hcore (hback.append htrail)
  simpa only [List.append_assoc] using hspaced

def isBareStart (c : Char) : Bool := isNumberStart c || isWordStart c

theorem not_break_of_isBareStart (h : isBareStart c = true) : isSpaceOrBreak c = false := by
  rw [Bool.eq_false_iff]
  intro hbreak
  simp only [isSpaceOrBreak, Bool.or_eq_true, decide_eq_true_eq] at hbreak
  rcases hbreak with ((rfl | rfl) | rfl) | rfl
  all_goals
    revert h
    decide

theorem isSpace_of_not_break (h : isSpaceOrBreak c = false) : isSpace c = false := by
  simp only [isSpaceOrBreak, Bool.or_eq_false_iff] at h
  simp [isSpace, h]

theorem NumberText.exists_start {y : Double} (h : NumberText text y) :
    ∃ c cs, text = c :: cs ∧ isBareStart c = true := by
  obtain ⟨c, cs, rfl, hc⟩ := h.exists_cons
  exact ⟨c, cs, rfl, by simp [isBareStart, hc]⟩

/-- The spaces before a number or a word are passed over, and those after it are left. -/
theorem skipSpaces_spaced (hlead : Spaces lead)
    (h : ∃ c cs, text = c :: cs ∧ isBareStart c = true) :
    skipSpaces (lead ++ text ++ trail ++ rest) = text ++ (trail ++ rest) := by
  obtain ⟨c, cs, rfl, hc⟩ := h
  rw [List.append_assoc, List.append_assoc]
  exact skipSpaces_append_eq hlead (stops_cons (isSpace_of_not_break (not_break_of_isBareStart hc)))

/-- Numbers among arguments are read as the grammar has them. -/
theorem reads_spacedNumber : Reads spacedNumber (Spaced NumberText) [',', ')'] where
  sound {cs rest x} h := by
    obtain ⟨lead, hlead, hcs⟩ := exists_spaces cs
    simp only [spacedNumber, bind_eq_ok_iff, Prod.exists] at h
    obtain ⟨y, after, hnumber, hdone⟩ := h
    cases hdone
    obtain ⟨core, hcore, hfront⟩ := exists_number hnumber
    obtain ⟨trail, htrail, hafter⟩ := exists_spaces after
    refine ⟨_, .intro hlead hcore htrail, ?_⟩
    rw [List.append_assoc, List.append_assoc, ← hafter, ← hfront]
    exact hcs
  complete {text x c} h hc tail := by
    obtain ⟨hlead, hcore, htrail⟩ := h
    have hnumber := number_append hcore (delimited_of_spaces htrail hc tail)
    rw [spacedNumber, skipSpaces_spaced hlead hcore.exists_start, bind_of_ok hnumber]
    simp only [skipSpaces_before_mark htrail hc tail]
    rfl
  padded h htrail := by simpa using h.padded .nil htrail
  skips cs := by rw [spacedNumber, spacedNumber, skipSpaces_skipSpaces]

theorem reads_count : Reads count (Spaced CountText) [',', ')'] where
  sound {cs rest x} h := by
    simp only [count, bind_eq_ok_iff, Prod.exists] at h
    obtain ⟨y, after, hnumber, hdone⟩ := h
    split_ifs at hdone with hcond
    cases hdone
    simp only [Bool.and_eq_true, decide_eq_true_eq] at hcond
    obtain ⟨text, ⟨hlead, hcore, htrail⟩, hcs⟩ := reads_spacedNumber.sound hnumber
    exact ⟨_, .intro hlead (.intro hcore hcond.1 hcond.2) htrail, hcs⟩
  complete {text x c} h hc tail := by
    obtain ⟨hlead, ⟨hcore, hwhole, hsign⟩, htrail⟩ := h
    have hnumber := reads_spacedNumber.complete (.intro hlead hcore htrail) hc tail
    rw [count, bind_of_ok hnumber]
    simp only [hwhole, hsign, decide_true, Bool.and_self, if_true]
    rfl
  padded h htrail := by simpa using h.padded .nil htrail
  skips cs := by rw [count, count, reads_spacedNumber.skips]

theorem quoted_skipSpaces (cs : List Char) : quoted (skipSpaces cs) = quoted cs := by
  obtain ⟨lead, hlead, hcs⟩ := exists_spaces cs
  have hdrop : cs.dropWhile isSpaceOrBreak = (skipSpaces cs).dropWhile isSpaceOrBreak := by
    conv_lhs => rw [hcs]
    exact List.dropWhile_append_of_pos hlead.gap
  rw [quoted, quoted, hdrop]

/-- A text in quotes that has been read is an option of the grammar. -/
theorem exists_quoted (h : quoted cs = .ok (v, rest)) :
    ∃ text, OptionText text v ∧ cs = text ++ rest := by
  obtain ⟨lead, back, hlead, hback, rfl⟩ := exists_split isSpaceOrBreak cs
  unfold quoted at h
  rw [dropWhile_append_eq hlead hback] at h
  split at h
  · next after =>
    obtain ⟨body, close, hbody, hclose, rfl⟩ := exists_split (· ≠ '"') after
    have hunquoted : '"' ∉ body := fun hmem => by simpa using hbody _ hmem
    rw [dropWhile_append_eq hbody hclose, takeWhile_append_eq hbody hclose] at h
    split at h
    · next left =>
      obtain ⟨trail, others, htrail, hothers, rfl⟩ := exists_split isSpaceOrBreak left
      rw [dropWhile_append_eq htrail hothers] at h
      cases h
      exact ⟨_, .quoted hlead hunquoted htrail, by simp⟩
    · cases h
  · cases h

theorem quoted_append {body : List Char} (hlead : Gap lead) (hbody : '"' ∉ body)
    (htrail : Gap trail) (hc : isSpaceOrBreak c = false) (tail : List Char) :
    quoted (lead ++ '"' :: (body ++ '"' :: trail) ++ c :: tail) =
      .ok (.text (unescape body), c :: tail) := by
  have hcs : lead ++ '"' :: (body ++ '"' :: trail) ++ c :: tail =
      lead ++ '"' :: (body ++ '"' :: (trail ++ c :: tail)) := by simp
  have hopen : Stops isSpaceOrBreak ('"' :: (body ++ '"' :: (trail ++ c :: tail))) :=
    stops_cons (by decide)
  have hinside : ∀ d ∈ body, decide (d ≠ '"') = true := fun d hd =>
    decide_eq_true fun heq => hbody (heq ▸ hd)
  have hclose : Stops (· ≠ '"') ('"' :: (trail ++ c :: tail)) := stops_cons (by decide)
  unfold quoted
  rw [hcs, dropWhile_append_eq hlead hopen]
  simp only [dropWhile_append_eq hinside hclose, takeWhile_append_eq hinside hclose,
    dropWhile_append_eq htrail (stops_cons hc)]

theorem quoted_of_start (h : ∃ c cs, text = c :: cs ∧ isBareStart c = true) :
    quoted (text ++ rest) = .error .mismatch := by
  obtain ⟨c, cs, rfl, hc⟩ := h
  have hdrop : (c :: cs ++ rest).dropWhile isSpaceOrBreak = c :: cs ++ rest :=
    dropWhile_append_eq Spaces.nil.gap (stops_cons (not_break_of_isBareStart hc))
  unfold quoted
  rw [hdrop]
  split
  · next hquote =>
    rw [(List.cons.inj hquote).1] at hc
    exact absurd hc (by decide)
  · rfl

theorem isWordPart_of_isWordStart (h : isWordStart c = true) : isWordPart c = true := by
  simp only [isWordStart, Bool.or_eq_true] at h
  rcases h with h | h <;> simp [isWordPart, h]

/-- A word that has been read is an option of the grammar. -/
theorem exists_bareWord (h : bareWord cs = .ok (v, rest)) :
    ∃ text, Bare text v ∧ cs = text ++ rest := by
  unfold bareWord at h
  split at h
  · next c after =>
    split_ifs at h with hfirst
    obtain ⟨word, back, hword, hback, rfl⟩ := exists_split isWordPart after
    have hpart := isWordPart_of_isWordStart hfirst
    rw [List.takeWhile_cons_of_pos hpart, List.dropWhile_cons_of_pos hpart,
      takeWhile_append_eq hword hback, dropWhile_append_eq hword hback] at h
    cases h
    exact ⟨_, .word hfirst hword, rfl⟩
  · cases h

theorem bareWord_append (hfirst : isWordStart c = true)
    (hword : ∀ d ∈ text, isWordPart d = true) (hrest : Delimited rest) :
    bareWord (c :: text ++ rest) = .ok (wordMeaning (c :: text), rest) := by
  have hall : ∀ d ∈ c :: text, isWordPart d = true :=
    List.forall_mem_cons.mpr ⟨isWordPart_of_isWordStart hfirst, hword⟩
  have hstops := hrest.stops (p := isWordPart) (by decide)
  simp only [bareWord, List.cons_append, hfirst, if_true]
  rw [← List.cons_append, takeWhile_append_eq hall hstops, dropWhile_append_eq hall hstops]

theorem not_isWordStart_of_mismatch (h : bareWord cs = .error .mismatch) :
    ∀ c ∈ cs.head?, isWordStart c = false := by
  intro c hc
  obtain ⟨after, rfl⟩ := List.head?_eq_some_iff.mp hc
  unfold bareWord at h
  simpa using h

/-- An option without quotes that has been read is one of the grammar. -/
theorem exists_bare (h : either bareWord numberOption cs = .ok (v, rest)) :
    ∃ text, Bare text v ∧ cs = text ++ rest := by
  rcases ok_of_either h with hword | ⟨hmismatch, hnumber⟩
  · exact exists_bareWord hword
  · simp only [numberOption, bind_eq_ok_iff, Prod.exists] at hnumber
    obtain ⟨x, after, hread, hdone⟩ := hnumber
    cases hdone
    obtain ⟨text, htext, rfl⟩ := exists_number hread
    refine ⟨text, .number htext fun c hc => ?_, rfl⟩
    have hstart := not_isWordStart_of_mismatch hmismatch c (List.mem_head?_append_of_mem_head? hc)
    simp only [isWordStart, Bool.or_eq_false_iff] at hstart
    exact hstart.1

theorem Bare.exists_start (h : Bare text v) : ∃ c cs, text = c :: cs ∧ isBareStart c = true := by
  cases h with
  | word hfirst _ => exact ⟨_, _, rfl, by simp [isBareStart, hfirst]⟩
  | number h _ => exact h.exists_start

/-- An option of the grammar without quotes is read as a whole. -/
theorem bare_append (h : Bare text v) (hrest : Delimited rest) :
    either bareWord numberOption (text ++ rest) = .ok (v, rest) := by
  cases h with
  | word hfirst hword => exact either_of_ok (bareWord_append hfirst hword hrest)
  | number h hfirst =>
    have hnumber := number_append h hrest
    obtain ⟨c, cs, rfl, hc⟩ := h.exists_cons
    have hunder : c ≠ '_' := by
      rintro rfl
      exact absurd hc (by decide)
    have hword : bareWord (c :: (cs ++ rest)) = .error .mismatch := by
      simp [bareWord, isWordStart, hfirst c rfl, hunder]
    rw [List.cons_append, either_of_mismatch hword, ← List.cons_append, numberOption,
      bind_of_ok hnumber]
    rfl

theorem OptionText.padded (hlead : Spaces lead) (h : OptionText text v) (htrail : Spaces trail) :
    OptionText (lead ++ text ++ trail) v := by
  cases h with
  | quoted hfront hbody hback =>
    have hpadded := OptionText.quoted (hlead.gap.append hfront) hbody (hback.append htrail.gap)
    simpa only [List.append_assoc, List.cons_append] using hpadded
  | bare h => exact .bare (h.padded hlead htrail)

theorem reads_option : Reads option OptionText [',', ')'] where
  sound {cs rest v} h := by
    obtain ⟨lead, hlead, hcs⟩ := exists_spaces cs
    simp only [option, bind_eq_ok_iff, Prod.exists] at h
    obtain ⟨y, after, hread, hdone⟩ := h
    cases hdone
    obtain ⟨trail, htrail, hafter⟩ := exists_spaces after
    have hcore : ∃ text, OptionText text v ∧ skipSpaces cs = text ++ after := by
      rcases ok_of_either hread with hquoted | ⟨-, hbare⟩
      · exact exists_quoted hquoted
      · obtain ⟨text, htext, hfront⟩ := exists_bare hbare
        refine ⟨text, .bare ?_, hfront⟩
        simpa using Spaced.intro .nil htext .nil
    obtain ⟨text, htext, hfront⟩ := hcore
    refine ⟨_, htext.padded hlead htrail, ?_⟩
    rw [List.append_assoc, List.append_assoc, ← hafter, ← hfront]
    exact hcs
  complete {text v c} h hc tail := by
    have hmark : isSpaceOrBreak c = false := by
      have hmarks : ∀ c ∈ [',', ')'], isSpaceOrBreak c = false := by simp [isSpaceOrBreak]
      exact hmarks c hc
    cases h with
    | quoted hlead hbody htrail =>
      have hquoted := quoted_append hlead hbody htrail hmark tail
      have hback : skipSpaces (c :: tail) = c :: tail := skipSpaces_before_mark .nil hc tail
      rw [← quoted_skipSpaces] at hquoted
      rw [option, bind_of_ok (either_of_ok hquoted)]
      simp only [hback]
      rfl
    | bare h =>
      obtain ⟨hlead, hcore, htrail⟩ := h
      have hbare := bare_append hcore (delimited_of_spaces htrail hc tail)
      have hread := (either_of_mismatch (quoted_of_start hcore.exists_start)).trans hbare
      rw [option, skipSpaces_spaced hlead hcore.exists_start, bind_of_ok hread]
      simp only [skipSpaces_before_mark htrail hc tail]
      rfl
  padded h htrail := by simpa using h.padded .nil htrail
  skips cs := by rw [option, option, skipSpaces_skipSpaces]

/-- What is read after the first option is a list of options behind a comma, or nothing. -/
theorem exists_moreOptions {vs : List Scalar} {fuel : ℕ}
    (h : moreOptions fuel cs = .ok (vs, rest)) :
    vs = [] ∧ rest = cs ∨ ∃ gap text, Spaces gap ∧ OptionsText text vs ∧
      cs = gap ++ ',' :: (text ++ rest) := by
  -- A comma that no option follows is given back, and then nothing has been taken off.
  induction fuel generalizing cs vs with
  | zero =>
    cases h
    exact Or.inl ⟨rfl, rfl⟩
  | succ fuel ih =>
    unfold moreOptions at h
    split at h
    · cases h
      exact Or.inl ⟨rfl, rfl⟩
    · next after hmark =>
      obtain ⟨gap, tail, hgap, rfl, rfl⟩ := (mark_eq_ok_iff (by decide)).mp hmark
      rw [reads_option.skips] at h
      split at h
      · cases h
        exact Or.inl ⟨rfl, rfl⟩
      · cases h
      · next v after hoption =>
        obtain ⟨first, hfirst, rfl⟩ := reads_option.sound hoption
        simp only [bind_eq_ok_iff, Prod.exists] at h
        obtain ⟨others, left, hothers, hdone⟩ := h
        cases hdone
        refine Or.inr ⟨gap, ?_⟩
        rcases ih hothers with ⟨rfl, rfl⟩ | ⟨trail, text, htrail, htext, rfl⟩
        · exact ⟨first, hgap, .last hfirst, rfl⟩
        · refine ⟨first ++ trail ++ ',' :: text, hgap, .more ?_ htext, by simp⟩
          exact reads_option.padded hfirst htrail

theorem moreOptions_closed (fuel : ℕ) (tail : List Char) :
    moreOptions fuel (')' :: tail) = .ok ([], ')' :: tail) := by
  cases fuel with
  | zero => rfl
  | succ fuel => rw [moreOptions, mark_of_ne (by decide) (by decide)]

theorem moreOptions_option {fuel : ℕ} {vs : List Scalar}
    (hoption : option cs = .ok (v, text)) (hothers : moreOptions fuel text = .ok (vs, rest)) :
    moreOptions (fuel + 1) (',' :: cs) = .ok (v :: vs, rest) := by
  have hmark : mark ',' (',' :: cs) = .ok ((), skipSpaces cs) :=
    (mark_eq_ok_iff (by decide)).mpr ⟨[], cs, .nil, rfl, rfl⟩
  simp only [moreOptions, hmark, reads_option.skips, hoption, bind_of_ok hothers]
  rfl

theorem moreOptions_append {vs : List Scalar} (h : OptionsText text vs) {fuel : ℕ}
    (hfuel : text.length < fuel) (tail : List Char) :
    moreOptions fuel (',' :: (text ++ ')' :: tail)) = .ok (vs, ')' :: tail) := by
  induction h generalizing fuel with
  | last h =>
    obtain ⟨fuel, rfl⟩ := Nat.exists_eq_succ_of_ne_zero (Nat.ne_zero_of_lt hfuel)
    exact moreOptions_option (reads_option.complete h (by decide) tail)
      (moreOptions_closed fuel tail)
  | @more cs rest v vs h _ ih =>
    obtain ⟨fuel, rfl⟩ := Nat.exists_eq_succ_of_ne_zero (Nat.ne_zero_of_lt hfuel)
    have hrest : rest.length < fuel := by
      simp only [List.length_append, List.length_cons] at hfuel
      omega
    rw [List.append_assoc, List.cons_append]
    exact moreOptions_option (reads_option.complete h (by decide) _) (ih hrest)

theorem OptionsText.padded {vs : List Scalar} (h : OptionsText text vs) (htrail : Spaces trail) :
    OptionsText (text ++ trail) vs := by
  induction h with
  | last h => exact .last (reads_option.padded h htrail)
  | more h _ ih =>
    rw [List.append_assoc, List.cons_append]
    exact .more h ih

theorem reads_options : Reads options OptionsText [')'] where
  sound {cs rest vs} h := by
    simp only [options, bind_eq_ok_iff, Prod.exists] at h
    obtain ⟨v, after, hoption, others, left, hothers, hdone⟩ := h
    cases hdone
    obtain ⟨first, hfirst, rfl⟩ := reads_option.sound hoption
    rcases exists_moreOptions hothers with ⟨rfl, rfl⟩ | ⟨gap, text, hgap, htext, rfl⟩
    · exact ⟨first, .last hfirst, rfl⟩
    · exact ⟨_, .more (reads_option.padded hfirst hgap) htext, by simp⟩
  complete {text vs c} h hc tail := by
    obtain rfl := List.mem_singleton.mp hc
    cases h with
    | last h =>
      have hoption := reads_option.complete h (List.mem_cons_of_mem _ hc) tail
      rw [options, bind_of_ok hoption]
      simp only [bind_of_ok (moreOptions_closed _ tail)]
      rfl
    | @more cs others _ _ h hrest =>
      have hoption := reads_option.complete h List.mem_cons_self (others ++ ')' :: tail)
      have hlength : others.length < (',' :: (others ++ ')' :: tail)).length := by
        simp only [List.length_cons, List.length_append]
        omega
      rw [List.append_assoc, List.cons_append, options, bind_of_ok hoption]
      simp only [bind_of_ok (moreOptions_append hrest hlength tail)]
      rfl
  padded := OptionsText.padded
  skips cs := by rw [options, options, reads_option.skips]

theorem reads_pair (h : Reads reader L [',', ')']) : Reads (pair reader) (PairText L) [')'] where
  sound {cs rest x} hread := by
    simp only [pair, bind_eq_ok_iff, Prod.exists] at hread
    obtain ⟨x, after, hfirst, u, back, hmark, y, left, hsecond, hdone⟩ := hread
    cases hdone
    obtain ⟨first, hx, rfl⟩ := h.sound hfirst
    obtain ⟨gap, tail, hgap, rfl, rfl⟩ := (mark_eq_ok_iff (by decide)).mp hmark
    rw [h.skips] at hsecond
    obtain ⟨second, hy, rfl⟩ := h.sound hsecond
    exact ⟨_, .intro (h.padded hx hgap) hy, by simp⟩
  complete {text x c} htext hc tail := by
    obtain @⟨first, second, x, y, hx, hy⟩ := htext
    have hcomma := h.complete hx List.mem_cons_self (second ++ c :: tail)
    have hclose := h.complete hy (List.mem_cons_of_mem _ hc) tail
    have hmark : mark ',' (',' :: (second ++ c :: tail)) =
        .ok ((), skipSpaces (second ++ c :: tail)) :=
      (mark_eq_ok_iff (by decide)).mpr ⟨[], _, .nil, rfl, rfl⟩
    rw [← h.skips] at hclose
    rw [List.append_assoc, List.cons_append, pair, bind_of_ok hcomma]
    simp only [bind_of_ok hmark, bind_of_ok hclose]
    rfl
  padded {text trail x} htext htrail := by
    obtain ⟨hx, hy⟩ := htext
    rw [List.append_assoc, List.cons_append]
    exact .intro hx (h.padded hy htrail)
  skips cs := by rw [pair, pair, h.skips]

theorem inParentheses_eq_ok_iff {marks : List Char} (h : Reads reader L marks)
    (hclose : ')' ∈ marks) : inParentheses reader cs = .ok (x, rest) ↔
      ∃ gap arguments tail, Spaces gap ∧ L arguments x ∧
        cs = gap ++ '(' :: (arguments ++ ')' :: tail) ∧ rest = skipSpaces tail := by
  constructor
  · intro hread
    simp only [inParentheses, bind_eq_ok_iff, Prod.exists] at hread
    obtain ⟨_, front, hopen, y, back, hinner, _, left, hmark, hdone⟩ := hread
    cases hdone
    obtain ⟨gap, inner, hgap, rfl, rfl⟩ := (mark_eq_ok_iff (by decide)).mp hopen
    rw [h.skips] at hinner
    obtain ⟨text, htext, rfl⟩ := h.sound hinner
    obtain ⟨trail, tail, htrail, rfl, rfl⟩ := (mark_eq_ok_iff (by decide)).mp hmark
    exact ⟨gap, text ++ trail, tail, hgap, h.padded htext htrail, by simp, rfl⟩
  · rintro ⟨gap, arguments, tail, hgap, harguments, rfl, rfl⟩
    have hopen : mark '(' (gap ++ '(' :: (arguments ++ ')' :: tail)) =
        .ok ((), skipSpaces (arguments ++ ')' :: tail)) :=
      (mark_eq_ok_iff (by decide)).mpr ⟨gap, _, hgap, rfl, rfl⟩
    have hinner := h.complete harguments hclose tail
    have hmark : mark ')' (')' :: tail) = .ok ((), skipSpaces tail) :=
      (mark_eq_ok_iff (by decide)).mpr ⟨[], tail, .nil, rfl, rfl⟩
    rw [← h.skips] at hinner
    rw [inParentheses, bind_of_ok hopen]
    simp only [bind_of_ok hinner, bind_of_ok hmark]
    rfl

theorem word_eq_ok_iff {w : String} : word w cs = .ok ((), rest) ↔ cs = w.toList ++ rest := by
  constructor
  · intro h
    unfold word afterWord? at h
    split at h
    · next after hafter =>
      cases h
      split_ifs at hafter with hfront
      have hsplit := List.take_append_drop w.toList.length cs
      rw [hfront, Option.some.inj hafter] at hsplit
      exact hsplit.symm
    · cases h
  · rintro rfl
    simp [word, afterWord?]

theorem named_eq_ok_iff {name : String} {make : α → Rule} {r : Rule} {marks : List Char}
    (h : Reads reader L marks) (hclose : ')' ∈ marks) :
    named name reader make cs = .ok (r, rest) ↔
      ∃ x text tail, Call name L text x ∧ r = make x ∧ cs = text ++ tail ∧
        rest = skipSpaces tail := by
  constructor
  · intro hread
    simp only [named, bind_eq_ok_iff, Prod.exists] at hread
    obtain ⟨_, after, hword, x, left, hcall, hdone⟩ := hread
    cases hdone
    obtain rfl := word_eq_ok_iff.mp hword
    obtain ⟨gap, arguments, tail, hgap, harguments, rfl, rfl⟩ :=
      (inParentheses_eq_ok_iff h hclose).mp hcall
    exact ⟨x, _, tail, .intro hgap harguments, rfl, by simp, rfl⟩
  · rintro ⟨x, _, tail, @⟨gap, arguments, _, hgap, harguments⟩, rfl, rfl, rfl⟩
    have hcs : name.toList ++ gap ++ '(' :: (arguments ++ [')']) ++ tail =
        name.toList ++ (gap ++ '(' :: (arguments ++ ')' :: tail)) := by simp
    have hword : word name (name.toList ++ (gap ++ '(' :: (arguments ++ ')' :: tail))) =
        .ok ((), gap ++ '(' :: (arguments ++ ')' :: tail)) := word_eq_ok_iff.mpr rfl
    have hcall := (inParentheses_eq_ok_iff h hclose).mpr
      ⟨gap, arguments, tail, hgap, harguments, rfl, rfl⟩
    rw [hcs, named, bind_of_ok hword]
    simp only [bind_of_ok hcall]
    rfl

theorem named_of_other {name : String} {make : α → Rule}
    (h : afterWord? name.toList cs = none) :
    named name reader make cs = .error .mismatch := by
  simp [named, word, h, bind, Except.bind]

theorem exists_written {r : Rule} (h : bareRule cs = .ok (r, rest)) :
    ∃ text tail, Written text r ∧ cs = text ++ tail ∧ skipSpaces rest = skipSpaces tail := by
  have hcall : ∀ {α : Type} {name : String} {reader : Reader α} {L : Language α}
      {make : α → Rule} {marks : List Char}, Reads reader L marks → ')' ∈ marks →
      (∀ {text x}, Call name L text x → Written text (make x)) →
      named name reader make cs = .ok (r, rest) →
      ∃ text tail, Written text r ∧ cs = text ++ tail ∧ skipSpaces rest = skipSpaces tail := by
    intro α name reader L make marks hreads hclose hmake hnamed
    obtain ⟨x, text, tail, htext, rfl, rfl, rfl⟩ := (named_eq_ok_iff hreads hclose).mp hnamed
    exact ⟨text, tail, hmake htext, rfl, skipSpaces_skipSpaces tail⟩
  rcases ok_of_either h with h | ⟨-, h⟩
  · exact hcall (reads_pair reads_spacedNumber) (by decide) .range h
  rcases ok_of_either h with h | ⟨-, h⟩
  · exact hcall (reads_pair reads_count) (by decide) .length h
  rcases ok_of_either h with h | ⟨-, h⟩
  · exact hcall reads_options (by decide) .oneOf h
  rcases ok_of_either h with h | ⟨-, h⟩
  · exact hcall reads_spacedNumber (by decide) .min h
  rcases ok_of_either h with h | ⟨-, h⟩
  · exact hcall reads_spacedNumber (by decide) .max h
  · simp only [required, bind_eq_ok_iff, Prod.exists] at h
    obtain ⟨_, tail, hword, hdone⟩ := h
    cases hdone
    exact ⟨_, rest, .required, word_eq_ok_iff.mp hword, rfl⟩

/-- A call is read by its own name. -/
theorem Call.read {name : String} {marks : List Char} (hcall : Call name L text x)
    (h : Reads reader L marks) (hclose : ')' ∈ marks) (make : α → Rule) (tail : List Char) :
    named name reader make (text ++ tail) = .ok (make x, skipSpaces tail) :=
  (named_eq_ok_iff h hclose).mpr ⟨x, text, tail, hcall, rfl, rfl, rfl⟩

/-- A name that the one of a call cannot be taken for leaves the call to the next reader. -/
theorem Call.left_to {name other : String} {y : β} {M : Language β} (hcall : Call name M text y)
    (h : ∀ cs, afterWord? other.toList (name.toList ++ cs) = none) (reader : Reader α)
    (make : α → Rule) (next : Reader Rule) (tail : List Char) :
    either (named other reader make) next (text ++ tail) = next (text ++ tail) := by
  obtain ⟨hgap, harguments⟩ := hcall
  refine either_of_mismatch (named_of_other ?_)
  simpa only [List.append_assoc] using h _

theorem bareRule_append {r : Rule} (h : Written text r) (tail : List Char) :
    ∃ rest, bareRule (text ++ tail) = .ok (r, rest) ∧ skipSpaces rest = skipSpaces tail := by
  -- No name is the front of another, so the readers before the right one leave the text to it.
  cases h with
  | required =>
    have hword : word "required" ("required".toList ++ tail) = .ok ((), tail) :=
      word_eq_ok_iff.mpr rfl
    refine ⟨tail, ?_, rfl⟩
    rw [bareRule, either_of_mismatch (named_of_other rfl), either_of_mismatch (named_of_other rfl),
      either_of_mismatch (named_of_other rfl), either_of_mismatch (named_of_other rfl),
      either_of_mismatch (named_of_other rfl), required, bind_of_ok hword]
    rfl
  | range h =>
    have hread := h.read (reads_pair reads_spacedNumber) (by decide) (fun p => .range p.1 p.2) tail
    exact ⟨_, either_of_ok hread, skipSpaces_skipSpaces tail⟩
  | length h =>
    have hread := h.read (reads_pair reads_count) (by decide) (fun p => .length p.1 p.2) tail
    refine ⟨_, ?_, skipSpaces_skipSpaces tail⟩
    rw [bareRule, h.left_to fun _ => rfl]
    exact either_of_ok hread
  | oneOf h =>
    have hread := h.read reads_options (by decide) .oneOf tail
    refine ⟨_, ?_, skipSpaces_skipSpaces tail⟩
    rw [bareRule, h.left_to fun _ => rfl, h.left_to fun _ => rfl]
    exact either_of_ok hread
  | min h =>
    have hread := h.read reads_spacedNumber (by decide) .min tail
    refine ⟨_, ?_, skipSpaces_skipSpaces tail⟩
    rw [bareRule, h.left_to fun _ => rfl, h.left_to fun _ => rfl, h.left_to fun _ => rfl]
    exact either_of_ok hread
  | max h =>
    have hread := h.read reads_spacedNumber (by decide) .max tail
    refine ⟨_, ?_, skipSpaces_skipSpaces tail⟩
    rw [bareRule, h.left_to fun _ => rfl, h.left_to fun _ => rfl, h.left_to fun _ => rfl,
      h.left_to fun _ => rfl]
    exact either_of_ok hread

end BehaviorTree.RuleText
