import Relata.Condition
import Relata.Proofs.Partial
import Relata.Proofs.Trimming
/-!
# The text of conditions

A text is cut at its first run of marks. What comes before is trimmed to the subject and what comes after to the operand
(`parse_eq_ok_iff_cut`). So the texts of a condition are those that have its parts in a row with white space around them
(`Spells`), where an operand that begins with a mark needs white space before it. The text that a condition is printed
as is one of them.
-/

namespace Relata

namespace Comparison

theorem parse_eq_ok_iff {s : String} {op : Comparison} : parse s = .ok op ↔ s = op.symbol := by
  constructor
  · intro h
    rw [parse] at h
    split at h
    · next found hf =>
      cases h
      have same : (op.symbol == s) = true := List.find?_some (p := fun c : Comparison => c.symbol == s) hf
      exact (eq_of_beq same).symm
    · cases h
  · intro h
    rw [h]
    cases op <;> rfl

/-- A symbol is a run of marks. -/
theorem symbol_marks (op : Comparison) :
    op.symbol.toList ≠ [] ∧ ∀ c ∈ op.symbol.toList, Condition.isMark c = true := by
  cases op <;> simp [symbol, Condition.isMark]

end Comparison

namespace Condition

variable {text : String} {c : Condition}

/-- What is not refused as a subject and an operand. -/
theorem refused_iff {subject operand : List Char} :
    ¬(subject.isEmpty || subject.any Text.isBlank || operand.isEmpty) = true
      ↔ subject ≠ [] ∧ (∀ x ∈ subject, Text.isBlank x = false) ∧ operand ≠ [] := by
  simp [and_assoc]

/-- A condition is parsed from a front without marks, a symbol, and a rest that does not begin with a mark. -/
theorem parse_eq_ok_iff_cut : parse text = .ok c ↔ ∃ left rest : List Char,
    text.toList = left ++ (c.comparison.symbol.toList ++ rest) ∧ (∀ x ∈ left, isMark x = false)
      ∧ (∀ x ∈ rest.head?, isMark x = false) ∧ Text.trim left = c.subject.toList ∧ Text.trim rest = c.operand.toList
      ∧ c.subject.toList ≠ [] ∧ (∀ x ∈ c.subject.toList, Text.isBlank x = false) ∧ c.operand.toList ≠ [] := by
  constructor
  · intro h
    unfold parse at h
    dsimp only at h
    generalize hl : (text.toList.takeWhile fun x => !isMark x) = left at h
    generalize hm : (text.toList.dropWhile fun x => !isMark x) = marked at h
    generalize hr : marked.takeWhile isMark = run at h
    generalize hb : marked.dropWhile isMark = rest at h
    obtain ⟨parts, before, -⟩ := span_iff.mp ⟨hl, hm⟩
    obtain ⟨rfl, -, behind⟩ := span_iff.mp ⟨hr, hb⟩
    split at h
    · cases h
    · obtain ⟨op, hop, h⟩ := exists_of_bind_eq_ok h
      split at h
      · cases h
      · next passed =>
        cases h
        have spelled := congrArg String.toList (Comparison.parse_eq_ok_iff.mp hop)
        rw [String.toList_ofList] at spelled
        refine ⟨left, rest, spelled ▸ parts, by simpa using before, behind, ?_⟩
        simp only [String.toList_ofList]
        exact ⟨trivial, trivial, refused_iff.mp passed⟩
  · intro h
    obtain ⟨left, rest, ht, hl, hr, subject, operand, passed⟩ := h
    obtain ⟨there, marks⟩ := c.comparison.symbol_marks
    obtain ⟨m, more, hm⟩ := List.exists_cons_of_ne_nil there
    obtain ⟨before, after⟩ : (text.toList.takeWhile fun x => !isMark x) = left
        ∧ (text.toList.dropWhile fun x => !isMark x) = c.comparison.symbol.toList ++ rest := by
      rw [span_iff]
      refine ⟨ht, by simpa using hl, ?_⟩
      intro x hx
      rw [hm] at hx
      cases hx
      rw [marks m (hm ▸ List.mem_cons_self)]
      rfl
    obtain ⟨run, behind⟩ := span_iff.mpr ⟨rfl, marks, hr⟩
    have symbol : Comparison.parse c.comparison.symbol = .ok c.comparison := Comparison.parse_eq_ok_iff.mpr rfl
    unfold parse
    dsimp only
    rw [before, after, run, behind, subject, operand, if_neg (by simp [there]), String.ofList_toList, symbol]
    show (if _ then _ else _) = _
    rw [if_neg (refused_iff.mpr passed), String.ofList_toList, String.ofList_toList]

/-! ## Spellings -/

/-- What can be the subject of a condition: a text without white space and without marks. -/
def IsSubject (s : String) : Prop := s ≠ "" ∧ ∀ x ∈ s.toList, Text.isBlank x = false ∧ isMark x = false

instance (s : String) : Decidable (IsSubject s) :=
  @instDecidableAnd _ _ inferInstance (List.decidableBAll _ s.toList)

/-- What can be the operand of a condition: a text without white space at its ends. -/
def IsOperand (s : String) : Prop := s ≠ "" ∧ Text.Trimmed s.toList

/-- How a condition is spelled: its subject, its symbol and its operand in a row, with white space before, between and
after them. An operand that begins with a mark is set off from the symbol, of which the mark would be a part. -/
def Spells (c : Condition) (text : String) : Prop :=
  IsSubject c.subject ∧ IsOperand c.operand ∧ ∃ before gap space after : String,
    (∀ w ∈ [before, gap, space, after], Text.AllBlank w.toList)
      ∧ text = before ++ c.subject ++ gap ++ c.comparison.symbol ++ space ++ c.operand ++ after
      ∧ (space = "" → ∀ x ∈ c.operand.toList.head?, isMark x = false)

theorem isMark_of_isBlank {x : Char} (h : Text.isBlank x = true) : isMark x = false := by
  by_contra hm
  simp only [isMark, Bool.not_eq_false, Bool.or_eq_true, decide_eq_true_eq] at hm
  rcases hm with ((rfl | rfl) | rfl) | rfl
  all_goals cases h

theorem parse_of_spells (h : c.Spells text) : parse text = .ok c := by
  obtain ⟨⟨named, plain⟩, ⟨full, trimmed⟩, before, gap, space, after, blank, rfl, apart⟩ := h
  have hb := blank before (by simp)
  have hg := blank gap (by simp)
  have hs := blank space (by simp)
  have ha := blank after (by simp)
  rw [parse_eq_ok_iff_cut]
  refine ⟨(before ++ c.subject ++ gap).toList, (space ++ c.operand ++ after).toList, ?_, ?_, ?_, ?_, ?_, ?_, ?_, ?_⟩
  · simp only [String.toList_append, List.append_assoc]
  · intro x hx
    simp only [String.toList_append, List.mem_append] at hx
    rcases hx with (hx | hx) | hx
    · exact isMark_of_isBlank (hb x hx)
    · exact (plain x hx).2
    · exact isMark_of_isBlank (hg x hx)
  · intro x hx
    simp only [String.toList_append, List.append_assoc, List.head?_append, Option.mem_def, Option.or_eq_some_iff] at hx
    rcases hx with hx | ⟨none, hx | ⟨hx, -⟩⟩
    · exact isMark_of_isBlank (hs x (List.mem_of_head? hx))
    · exact apart (String.toList_eq_nil_iff.mp (List.head?_eq_none_iff.mp none)) x hx
    · exact absurd (String.toList_eq_nil_iff.mp (List.head?_eq_none_iff.mp hx)) full
  · rw [Text.trim_eq_iff]
    refine ⟨.of_forall fun x hx => (plain x hx).1, _, _, hb, hg, ?_⟩
    simp only [String.toList_append]
  · rw [Text.trim_eq_iff]
    refine ⟨trimmed, _, _, hs, ha, ?_⟩
    simp only [String.toList_append]
  · rwa [Ne, String.toList_eq_nil_iff]
  · exact fun x hx => (plain x hx).1
  · rwa [Ne, String.toList_eq_nil_iff]

theorem spells_of_parse (h : parse text = .ok c) : c.Spells text := by
  obtain ⟨left, rest, ht, hl, hr, subject, operand, named, plain, full⟩ := parse_eq_ok_iff_cut.mp h
  obtain ⟨-, before, gap, hb, hg, rfl⟩ := Text.trim_eq_iff.mp subject
  obtain ⟨trimmed, space, after, hs, ha, rfl⟩ := Text.trim_eq_iff.mp operand
  have within : ∀ x ∈ c.subject.toList, isMark x = false := by
    intro x hx
    apply hl
    simp [hx]
  refine ⟨⟨?_, fun x hx => ⟨plain x hx, within x hx⟩⟩, ⟨?_, trimmed⟩, .ofList before, .ofList gap, .ofList space,
    .ofList after, ?_, ?_, ?_⟩
  · rwa [Ne, ← String.toList_eq_nil_iff]
  · rwa [Ne, ← String.toList_eq_nil_iff]
  · simp only [List.forall_mem_cons, String.toList_ofList]
    exact ⟨hb, hg, hs, ha, fun _ h => (nomatch h)⟩
  · rw [← String.toList_inj, ht]
    simp only [String.toList_append, String.toList_ofList, List.append_assoc]
  · intro he x hx
    apply hr
    rw [String.ofList_eq_empty_iff.mp he, List.nil_append, List.head?_append, Option.mem_def.mp hx]
    rfl

/-- A condition is printed as one of the texts that spell it. -/
theorem spells_render (hs : IsSubject c.subject) (ho : IsOperand c.operand) : c.Spells c.render := by
  have space : Text.isBlank ' ' = true := by decide
  refine ⟨hs, ho, "", " ", " ", "", ?_, ?_, ?_⟩
  · simp [Text.AllBlank, space]
  · simp [render]
  · intro h
    exact absurd h (by decide)

/-- The texts that are parsed as a condition are those that spell it, the one it is printed as among them. -/
theorem parse_eq_ok_iff_spells (text : String) (c : Condition) :
    (parse text = .ok c ↔ c.Spells text) ∧ (parse text = .ok c → parse c.render = .ok c) := by
  refine ⟨⟨spells_of_parse, parse_of_spells⟩, fun h => ?_⟩
  obtain ⟨subject, operand, -⟩ := spells_of_parse h
  exact parse_of_spells (spells_render subject operand)

/-- The symbol is the longest run of marks, so an operand that begins with one is set off from it by white space of any
kind. -/
theorem parse_eq_ok_iff_spells_of_marked : Spells ⟨"site", .le, "=1 < 2"⟩ "\u3000site<=\t=1 < 2\u00a0\n"
    ∧ parse (render ⟨"site", .le, "=1 < 2"⟩) = .ok ⟨"site", .le, "=1 < 2"⟩ := by
  have parsed : parse "\u3000site<=\t=1 < 2\u00a0\n" = .ok ⟨"site", .le, "=1 < 2"⟩ := by decide +kernel
  have both := parse_eq_ok_iff_spells "\u3000site<=\t=1 < 2\u00a0\n" ⟨"site", .le, "=1 < 2"⟩
  exact ⟨both.1.mp parsed, both.2 parsed⟩

end Condition

end Relata
