import BehaviorTree.Proofs.RuleReading

/-!
A text is read as a rule exactly if it is one by the grammar once the blanks around it are off.
Reading a rule at the front of a longer text comes to the same: a rule ends with its own last
character, and nothing after it changes what it says.
-/
namespace BehaviorTree.RuleText

variable {c : Char} {cs lead text trail tail rest : List Char} {r : Rule} {p : Char → Bool}

theorem Stops.of_isPrefix (h : Stops p cs) (hfront : text <+: cs) : Stops p text := by
  intro c hc
  obtain ⟨tail, rfl⟩ := hfront
  exact h c (List.mem_head?_append_of_mem_head? hc)

theorem stops_dropWhile (p : Char → Bool) (cs : List Char) : Stops p (cs.dropWhile p) := by
  obtain ⟨front, rest, hfront, hrest, rfl⟩ := exists_split p cs
  rwa [dropWhile_append_eq hfront hrest]

/-- Trimming takes off the blanks around a text that neither begins nor ends with one. -/
theorem trim_append (hlead : ∀ c ∈ lead, Text.isBlank c = true)
    (htrail : ∀ c ∈ trail, Text.isBlank c = true) (hsome : text ≠ [])
    (hfront : Stops Text.isBlank text) (hback : Stops Text.isBlank text.reverse) :
    Text.trim (lead ++ text ++ trail) = text := by
  have hstops : Stops Text.isBlank (text ++ trail) := by
    obtain ⟨c, cs, rfl⟩ := List.exists_cons_of_ne_nil hsome
    exact stops_cons (hfront c rfl)
  have hreverse : ∀ c ∈ trail.reverse, Text.isBlank c = true := by simpa using htrail
  rw [Text.trim, Text.trimBoth, List.append_assoc, dropWhile_append_eq hlead hstops,
    List.reverse_append, dropWhile_append_eq hreverse hback, List.reverse_reverse]

theorem stops_trim (cs : List Char) : Stops Text.isBlank (Text.trim cs) := by
  refine (stops_dropWhile Text.isBlank cs).of_isPrefix ?_
  exact List.rdropWhile_prefix Text.isBlank (cs.dropWhile Text.isBlank)

theorem stops_trim_reverse (cs : List Char) : Stops Text.isBlank (Text.trim cs).reverse := by
  rw [Text.trim, Text.trimBoth, List.reverse_reverse]
  exact stops_dropWhile Text.isBlank _

theorem trim_trim (cs : List Char) : Text.trim (Text.trim cs) = Text.trim cs := by
  by_cases hnone : Text.trim cs = []
  · rw [hnone]
    rfl
  · have h : Text.trim ([] ++ Text.trim cs ++ []) = Text.trim cs :=
      trim_append nofun nofun hnone (stops_trim cs) (stops_trim_reverse cs)
    simpa using h

theorem isBlank_of_isSpace (h : isSpace c = true) : Text.isBlank c = true := by
  simp only [isSpace, Bool.or_eq_true, decide_eq_true_eq] at h
  rcases h with rfl | rfl <;> rfl

theorem Spaces.isBlank (h : Spaces cs) : ∀ c ∈ cs, Text.isBlank c = true :=
  fun c hc => isBlank_of_isSpace (h c hc)

theorem Stops.of_isBlank (h : Stops Text.isBlank cs) : Stops isSpace cs := by
  intro c hc
  rw [Bool.eq_false_iff]
  intro hspace
  simpa [isBlank_of_isSpace hspace] using h c hc

theorem stops_reverse_append (h : p c = false) (cs : List Char) : Stops p (cs ++ [c]).reverse := by
  rw [List.reverse_append]
  exact stops_cons h

theorem Call.stops {α : Type} {name : String} {L : Language α} {x : α} (h : Call name L text x)
    (hname : ∃ c cs, name.toList = c :: cs ∧ Text.isBlank c = false) :
    text ≠ [] ∧ Stops Text.isBlank text ∧ Stops Text.isBlank text.reverse := by
  obtain @⟨gap, arguments, _, hgap, harguments⟩ := h
  obtain ⟨c, cs, hfront, hc⟩ := hname
  refine ⟨by simp, ?_, ?_⟩
  · rw [hfront]
    exact stops_cons hc
  · have hsplit : name.toList ++ gap ++ '(' :: (arguments ++ [')']) =
        name.toList ++ gap ++ '(' :: arguments ++ [')'] := by simp
    rw [hsplit]
    exact stops_reverse_append rfl _

/-- There are no blanks at the ends of a rule. -/
theorem Written.stops (h : Written text r) :
    text ≠ [] ∧ Stops Text.isBlank text ∧ Stops Text.isBlank text.reverse := by
  cases h with
  | required => exact ⟨by decide, stops_cons rfl, stops_cons rfl⟩
  | min h => exact h.stops ⟨_, _, rfl, rfl⟩
  | max h => exact h.stops ⟨_, _, rfl, rfl⟩
  | range h => exact h.stops ⟨_, _, rfl, rfl⟩
  | length h => exact h.stops ⟨_, _, rfl, rfl⟩
  | oneOf h => exact h.stops ⟨_, _, rfl, rfl⟩

theorem Written.trim (h : Written text r) (hlead : ∀ c ∈ lead, Text.isBlank c = true)
    (htrail : ∀ c ∈ trail, Text.isBlank c = true) : Text.trim (lead ++ text ++ trail) = text := by
  obtain ⟨hsome, hfront, hback⟩ := h.stops
  exact trim_append hlead htrail hsome hfront hback

/-- A rule at the front of a text is read with the spaces around it. -/
theorem rule_eq_ok_iff : rule cs = .ok (r, rest) ↔ ∃ lead text tail, Spaces lead ∧
    Written text r ∧ cs = lead ++ text ++ tail ∧ rest = skipSpaces tail := by
  constructor
  · intro h
    obtain ⟨lead, hlead, hcs⟩ := exists_spaces cs
    simp only [rule, bind_eq_ok_iff, Prod.exists] at h
    obtain ⟨r, after, hread, hdone⟩ := h
    cases hdone
    obtain ⟨text, tail, htext, hfront, hrest⟩ := exists_written hread
    refine ⟨lead, text, tail, hlead, htext, ?_, hrest⟩
    rw [List.append_assoc, ← hfront]
    exact hcs
  · rintro ⟨lead, text, tail, hlead, htext, rfl, rfl⟩
    obtain ⟨hsome, hfront, -⟩ := htext.stops
    obtain ⟨rest, hread, hrest⟩ := bareRule_append htext tail
    have hstops : Stops isSpace (text ++ tail) := by
      obtain ⟨c, cs, rfl⟩ := List.exists_cons_of_ne_nil hsome
      exact stops_cons (hfront.of_isBlank c rfl)
    rw [rule, List.append_assoc, skipSpaces_append_eq hlead hstops, bind_of_ok hread]
    simp only [hrest]
    rfl

theorem read?_eq_some_iff {s : String} :
    read? s = some r ↔ rule (Text.trim s.toList) = .ok (r, []) := by
  unfold read?
  split
  · next value hread => simp [hread]
  · next hread =>
    simp only [reduceCtorEq, false_iff]
    exact hread r

/-- The whole text is read if it is a rule of the grammar, blanks aside. -/
theorem read?_eq_some_iff_written {s : String} :
    read? s = some r ↔ Written (Text.trim s.toList) r := by
  rw [read?_eq_some_iff, rule_eq_ok_iff]
  constructor
  · rintro ⟨lead, text, tail, hlead, htext, hcs, htail⟩
    have hspaces : Spaces tail := List.dropWhile_eq_nil_iff.mp htail.symm
    have htrim := htext.trim hlead.isBlank hspaces.isBlank
    rw [← hcs, trim_trim] at htrim
    rwa [htrim]
  · intro h
    exact ⟨[], Text.trim s.toList, [], .nil, h, by simp, rfl⟩

/-- A rule of the grammar is read as what it stands for. -/
theorem Written.read?_eq (h : Written text r) : read? (String.ofList text) = some r := by
  have htrim := h.trim Spaces.nil.isBlank Spaces.nil.isBlank
  rw [List.nil_append, List.append_nil] at htrim
  rw [read?_eq_some_iff_written, String.toList_ofList, htrim]
  exact h

/-- No text of the grammar stands for two rules. -/
theorem Written.unique {q : Rule} (hr : Written text r) (hq : Written text q) : r = q :=
  Option.some.inj (hr.read?_eq.symm.trans hq.read?_eq)

/-- What can be read as a whole can be read in front of anything. -/
theorem rule_trim_append {s : String} (h : read? s = some r) (tail : List Char) :
    rule (Text.trim s.toList ++ tail) = .ok (r, skipSpaces tail) :=
  rule_eq_ok_iff.mpr ⟨[], _, tail, .nil, read?_eq_some_iff_written.mp h, rfl, rfl⟩

theorem exists_read?_of_rule (h : rule cs = .ok (r, rest)) :
    (∃ front, cs = front ++ rest ∧ read? (String.ofList front) = some r) ∧
      Stops isSpace rest := by
  obtain ⟨lead, text, tail, hlead, htext, rfl, rfl⟩ := rule_eq_ok_iff.mp h
  obtain ⟨gap, hgap, htail⟩ := exists_spaces tail
  refine ⟨⟨lead ++ text ++ gap, ?_, ?_⟩, stops_dropWhile isSpace tail⟩
  · rw [List.append_assoc _ gap, ← htail]
  · rw [read?_eq_some_iff_written, String.toList_ofList, htext.trim hlead.isBlank hgap.isBlank]
    exact htext

/-- A rule at the front of a text is a whole text that reads as the same rule, up to the first
character behind it that is no space. A text that reads as a rule, without the blanks around it,
is read as the same rule whatever comes after it, of which only spaces are taken with it. -/
theorem rule_agrees_with_read? :
    (∀ cs r rest, rule cs = .ok (r, rest) →
      (∃ front, cs = front ++ rest ∧ read? (String.ofList front) = some r) ∧
        Stops isSpace rest) ∧
    (∀ s r tail, read? s = some r → Stops isSpace tail →
      rule (Text.trim s.toList ++ tail) = .ok (r, tail)) ∧
    ∀ s r tail, read? s = some r →
      rule (Text.trim s.toList ++ tail) = .ok (r, skipSpaces tail) := by
  refine ⟨fun cs r rest => exists_read?_of_rule, fun s r tail h htail => ?_,
    fun s r tail h => rule_trim_append h tail⟩
  have hskip : skipSpaces tail = tail := skipSpaces_append_eq .nil htail
  rw [rule_trim_append h, hskip]

/-- Two rules in a row: the first is read off the front, and stays the same without the second. -/
theorem rule_agrees_with_read?_two_in_a_row :
    rule " one_of(up)\trequired".toList = .ok (.oneOf [.text "up"], "required".toList) ∧
      (∃ front, " one_of(up)\trequired".toList = front ++ "required".toList ∧
        read? (String.ofList front) = some (.oneOf [.text "up"])) ∧
      rule (Text.trim "\none_of(up) ".toList ++ "required".toList) =
        .ok (.oneOf [.text "up"], "required".toList) := by
  have hrule : rule " one_of(up)\trequired".toList =
      .ok (.oneOf [.text "up"], "required".toList) := by rfl
  have hread : read? "\none_of(up) " = some (.oneOf [.text "up"]) := by rfl
  obtain ⟨hfront, hback, -⟩ := rule_agrees_with_read?
  exact ⟨hrule, (hfront _ _ _ hrule).1, hback _ _ _ hread (stops_cons rfl)⟩

end BehaviorTree.RuleText
