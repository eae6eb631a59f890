import Relata.Proofs.Conditions
import Relata.Proofs.Keyed
import Relata.Proofs.ValueJson
/-!
# Literals

An integer is written as its numeral, and a text in quotes of either kind. A value is read back from each of its
literals, also where a text has white space, marks or quotes at its ends (`isOperand_and_readTrimmed?`). So a filter on a
literal selects what a comparison with the value does (`selectWhere_literal_eq_select`).
-/

namespace Relata

namespace Numeral

theorem isBlank_of_isDigit {c : Char} (h : c.isDigit = true) : Text.isBlank c = false := by
  obtain ⟨high, low⟩ := Json.toNat_lt_of_isDigit h
  have codes : ∀ code < 58, 48 ≤ code → Text.isBlank (Char.ofNat code) = false := by decide
  rw [← Char.ofNat_toNat c]
  exact codes c.toNat high low

/-- A numeral has no white space. -/
theorem trimmed_ofInt (n : Int) : Text.Trimmed (ofInt n) := by
  have sign : Text.isBlank '-' = false := by decide
  have digit : ∀ c ∈ Nat.toDigits 10 n.natAbs, Text.isBlank c = false :=
    fun c hc => isBlank_of_isDigit (isDigit_of_mem_digits hc)
  apply Text.Trimmed.of_forall
  intro c hc
  unfold ofInt at hc
  split at hc
  · rcases List.mem_cons.mp hc with rfl | hc
    · exact sign
    · exact digit c hc
  · exact digit c hc

theorem ofInt_ne_nil (n : Int) : ofInt n ≠ [] := by
  unfold ofInt
  split
  · exact List.cons_ne_nil _ _
  · exact Nat.toDigits_ne_nil

end Numeral

namespace Value

/-- The literals of an integer, a character or a string. A floating-point number has none here. -/
def literals (v : Value) : List String :=
  match v with
  | integer _ => [v.render]
  | long _ => [v.render]
  | short _ => [v.render]
  | byte _ => [v.render]
  | double _ => []
  | float _ => []
  | character _ => ["'" ++ v.render ++ "'", "\"" ++ v.render ++ "\""]
  | string _ => ["'" ++ v.render ++ "'", "\"" ++ v.render ++ "\""]

variable {v : Value} {literal : String}

/-! ## Integers -/

theorem isOperand_numeral (n : Int) : Condition.IsOperand (String.ofList (Numeral.ofInt n)) := by
  constructor
  · rw [Ne, String.ofList_eq_empty_iff]
    exact Numeral.ofInt_ne_nil n
  · rw [String.toList_ofList]
    exact Numeral.trimmed_ofInt n

theorem readInteger?_ofInt {bits : Nat} {n : Int} (low : -(Nat.pow 2 (bits - 1) : Int) ≤ n)
    (high : n < (Nat.pow 2 (bits - 1) : Int)) : readInteger? bits (Numeral.ofInt n) = some n := by
  rw [readInteger?, Numeral.readInt?_ofInt, Option.bind_some, fit?_eq_some low high]

/-! ## Texts -/

/-- What stands between quotes is not looked at, so it may be anything. -/
theorem unquote_quoted {q : Char} (hq : q ∈ ['\'', '"']) (s : List Char) : unquote (q :: (s ++ [q])) = s := by
  have quote : q = '\'' ∨ q = '"' := List.mem_pair.mp hq
  have last : (s ++ [q]).getLast? = some q := List.getLast?_concat
  rw [unquote, if_pos (by simp [quote, last]), List.dropLast_concat]

theorem isOperand_quoted {q : Char} (hq : q ∈ ['\'', '"']) {s : List Char} (h : literal.toList = q :: (s ++ [q])) :
    Condition.IsOperand literal := by
  have plain : Text.isBlank q = false := by
    rcases List.mem_pair.mp hq with rfl | rfl
    · decide
    · decide
  constructor
  · rw [Ne, ← String.toList_eq_nil_iff, h]
    exact List.cons_ne_nil _ _
  · rw [h]
    constructor
    · intro c hc
      cases hc
      exact plain
    · intro c hc
      rw [← List.cons_append, List.getLast?_concat] at hc
      cases hc
      exact plain

/-- A literal of a text is the text between quotes. -/
theorem exists_quoted {s : String} (h : literal ∈ ["'" ++ s ++ "'", "\"" ++ s ++ "\""]) :
    ∃ q ∈ ['\'', '"'], literal.toList = q :: (s.toList ++ [q]) := by
  rcases List.mem_pair.mp h with rfl | rfl
  · exact ⟨'\'', by decide, by simp⟩
  · exact ⟨'"', by decide, by simp⟩

/-! ## Values -/

/-- A literal can be the operand of a condition, and the value is read back from it. -/
theorem isOperand_and_readTrimmed? (h : literal ∈ v.literals) :
    Condition.IsOperand literal ∧ readTrimmed? v.domain literal.toList = some v := by
  cases v with
  | integer n =>
    rw [List.mem_singleton.mp h, render, domain, readTrimmed?, String.toList_ofList,
      readInteger?_ofInt n.le_toInt n.toInt_lt, Option.map_some, Int32.ofInt_toInt]
    exact ⟨isOperand_numeral _, rfl⟩
  | long n =>
    rw [List.mem_singleton.mp h, render, domain, readTrimmed?, String.toList_ofList,
      readInteger?_ofInt n.le_toInt n.toInt_lt, Option.map_some, Int64.ofInt_toInt]
    exact ⟨isOperand_numeral _, rfl⟩
  | short n =>
    rw [List.mem_singleton.mp h, render, domain, readTrimmed?, String.toList_ofList,
      readInteger?_ofInt n.le_toInt n.toInt_lt, Option.map_some, Int16.ofInt_toInt]
    exact ⟨isOperand_numeral _, rfl⟩
  | byte n =>
    rw [List.mem_singleton.mp h, render, domain, readTrimmed?, String.toList_ofList,
      readInteger?_ofInt n.le_toInt n.toInt_lt, Option.map_some, Int8.ofInt_toInt]
    exact ⟨isOperand_numeral _, rfl⟩
  | double bits => cases h
  | float bits => cases h
  | character c =>
    obtain ⟨q, hq, quoted⟩ := exists_quoted h
    refine ⟨isOperand_quoted hq quoted, ?_⟩
    rw [domain, readTrimmed?, quoted, unquote_quoted hq, render, String.toList_ofList]
  | string s =>
    obtain ⟨q, hq, quoted⟩ := exists_quoted h
    refine ⟨isOperand_quoted hq quoted, ?_⟩
    rw [domain, readTrimmed?, quoted, unquote_quoted hq, render, String.ofList_toList]

/-- A value is read back from each of its literals. -/
theorem parse_of_mem_literals (h : literal ∈ v.literals) : parse v.domain literal = .ok v := by
  obtain ⟨⟨-, trimmed⟩, back⟩ := isOperand_and_readTrimmed? h
  rw [parse, read?, trimmed.trim_eq, back]

end Value

namespace Table

variable {t : Table}

/-- A filter on an attribute, a comparison and a literal of a value, in a row with blanks between, selects what the
comparison of the attribute with the value does. -/
theorem selectWhere_literal_eq_select (ht : t.Reachable) {a : Attribute} (ha : a ∈ t.schema.attributes)
    (hs : Condition.IsSubject a.name) (op : Comparison) {v : Value} (hv : v.domain = a.domain) {literal : String}
    (hl : literal ∈ v.literals) (session session' : Session) :
    ∃ column w, t.schema.column? a.name = some column
      ∧ t.selectWhere (a.name ++ " " ++ op.symbol ++ " " ++ literal) session = .ok w
      ∧ w.1.schema = t.schema
      ∧ w.1.tuples = (t.tuples.filter fun row => (row[column]?).any fun u => op.holds (compare u v))
      ∧ SameResult (t.selectWhere (a.name ++ " " ++ op.symbol ++ " " ++ literal) session)
        (t.select (fun row => (row[column]?).map fun u => op.holds (compare u v)) session') := by
  obtain ⟨column, at_column⟩ := List.mem_iff_getElem?.mp ha
  have found : t.schema.column? a.name = some column := by
    rw [Schema.column?_eq_some_iff, Schema.names, List.getElem?_map, at_column]
    rfl
  have spelled : Condition.parse (a.name ++ " " ++ op.symbol ++ " " ++ literal) = .ok ⟨a.name, op, literal⟩ :=
    Condition.parse_of_spells (Condition.spells_render hs (Value.isOperand_and_readTrimmed? hl).1)
  have bound : Condition.bindLiteral ⟨a.name, op, literal⟩ t.schema = .ok ⟨column, op, v⟩ := by
    rw [Condition.bindLiteral_eq_ok_iff]
    exact ⟨a.domain, at_column, hv ▸ Value.parse_of_mem_literals hl, rfl⟩
  have filtered : Gives (t.selectWhere (a.name ++ " " ++ op.symbol ++ " " ++ literal) session) t.schema t.indexKind
      (t.tuples.filter (BoundCondition.satisfied ⟨column, op, v⟩)) :=
    gives_selectWhere rfl ht.wellFormed spelled bound
  have selected : Gives (t.select (fun row => (row[column]?).map fun u => op.holds (compare u v)) session') t.schema
      t.indexKind (t.tuples.filter (BoundCondition.satisfied ⟨column, op, v⟩)) := by
    apply gives_select
    intro row hr
    obtain ⟨u, hu⟩ := (Operator.fits_of_wellFormed ht.wellFormed row hr).getElem? (Condition.column_lt bound)
    rw [BoundCondition.satisfied, BoundCondition.matches?, hu]
    rfl
  have same := filtered.sameResult selected
  obtain ⟨name, next, made⟩ := filtered
  refine ⟨column, _, found, made, rfl, ?_, same⟩
  show t.tuples.filter _ = _
  apply List.filter_congr
  intro row _
  rw [BoundCondition.satisfied, BoundCondition.matches?]
  cases row[column]? with
  | none => rfl
  | some u => rfl

/-- The text of the site ends with a quote of the kind that it is put in. -/
theorem selectWhere_literal_eq_select_levels :
    let session : Session := ⟨"2", 0⟩
    let site : Attribute := ⟨"site", .string⟩
    let v : Value := .string "Åre \"N\""
    levels.Reachable ∧ site ∈ levels.schema.attributes ∧ Condition.IsSubject site.name ∧ v.domain = site.domain
      ∧ "\"Åre \"N\"\"" ∈ v.literals
      ∧ SameResult (levels.selectWhere "site >= \"Åre \"N\"\"" session)
        (levels.select (fun row => (row[0]?).map fun u => Comparison.ge.holds (compare u v)) session)
      ∧ ∃ w, levels.selectWhere "site >= \"Åre \"N\"\"" session = .ok w ∧ w.1.schema = levels.schema
        ∧ w.1.size = 2 := by
  intro session site v
  have ha : site ∈ levels.schema.attributes := by decide
  have hs : Condition.IsSubject site.name := by decide
  have hl : "\"Åre \"N\"\"" ∈ v.literals := by decide
  obtain ⟨column, w, found, made, schema, rows, same⟩ :=
    selectWhere_literal_eq_select reachable_levels ha hs .ge rfl hl session session
  obtain rfl : column = 0 := (Option.some.inj found).symm
  have text : site.name ++ " " ++ Comparison.ge.symbol ++ " " ++ "\"Åre \"N\"\"" = "site >= \"Åre \"N\"\"" := by
    decide
  rw [text] at made same
  refine ⟨reachable_levels, ha, hs, rfl, hl, same, w, made, schema, ?_⟩
  rw [size, rows]
  decide +kernel

end Table

end Relata
