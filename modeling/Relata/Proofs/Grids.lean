import Mathlib.Algebra.GroupWithZero.Nat
import Mathlib.Data.List.Forall2
import Mathlib.Order.Bounds.Basic
import Relata.Proofs.PayloadBound
import Relata.Proofs.Reachable
import Relata.Table.Grid
/-!
# Grids

Widening for one row after the other gives each column the greatest length among its name and its cells
(`exists_isGreatest_widths`), so every cell fits its column and stands at the same place on each line (`shows_line`).
A table is printed as a grid with aligned columns unless a column is wider than cells can be padded
(`Table.printed_aligned_or_too_wide`).
-/

namespace Relata

namespace Grid

/-! ## Widths -/

/-- The lengths of the cells that rows have at a position. -/
def lengthsAt (rows : List (List String)) (j : Nat) : Set Nat :=
  {n | ∃ row ∈ rows, ∃ cell : String, row[j]? = some cell ∧ cell.length = n}

theorem getElem?_widen (widths : List Nat) (cells : List String) (j : Nat) :
    (widen widths cells)[j]? = widths[j]?.map fun w => max w (cells[j]?.elim 0 String.length) := by
  induction widths generalizing cells j with
  | nil => cases cells <;> simp [widen]
  | cons w widths ih =>
    cases cells with
    | nil => simp [widen]
    | cons cell cells =>
      cases j with
      | zero => simp [widen]
      | succ j => simpa [widen] using ih cells j

theorem length_widen (widths : List Nat) (cells : List String) : (widen widths cells).length = widths.length := by
  induction widths generalizing cells with
  | nil => cases cells <;> rfl
  | cons w widths ih =>
    cases cells with
    | nil => rfl
    | cons cell cells => rw [widen, List.length_cons, ih, List.length_cons]

theorem length_widths (header : List String) (rows : List (List String)) :
    (widths header rows).length = header.length := by
  have kept : ∀ ws : List Nat, (rows.foldl widen ws).length = ws.length := by
    induction rows with
    | nil => intro ws; rfl
    | cons row rest ih => intro ws; rw [List.foldl_cons, ih, length_widen]
  rw [widths, kept, List.length_map]

theorem lengthsAt_cons_of_some {row : List String} {j : Nat} {cell : String} (h : row[j]? = some cell)
    (rows : List (List String)) : lengthsAt (row :: rows) j = insert cell.length (lengthsAt rows j) := by
  ext n
  simp [lengthsAt, h, eq_comm]

theorem lengthsAt_cons_of_none {row : List String} {j : Nat} (h : row[j]? = none) (rows : List (List String)) :
    lengthsAt (row :: rows) j = lengthsAt rows j := by
  ext n
  simp [lengthsAt, h]

/-- The greater one of two numbers stands for both. -/
theorem isGreatest_insert_of_max {a b w : Nat} {s : Set Nat} (h : IsGreatest (insert (max a b) s) w) :
    IsGreatest (insert a (insert b s)) w := by
  obtain ⟨found, bound⟩ := h
  have above : max a b ≤ w := bound (Set.mem_insert _ _)
  constructor
  · obtain rfl | found := found
    · rcases Nat.le_total a b with less | less
      · rw [Nat.max_eq_right less]
        exact .inr (.inl rfl)
      · rw [Nat.max_eq_left less]
        exact .inl rfl
    · exact .inr (.inr found)
  · intro n hn
    obtain rfl | rfl | hn := hn
    · omega
    · omega
    · exact bound (.inr hn)

/-- Widening for rows makes a width the greatest of what it was and the lengths in its column. -/
theorem exists_isGreatest_foldl {ws : List Nat} {j before : Nat} (h : ws[j]? = some before)
    (rows : List (List String)) :
    ∃ w, (rows.foldl widen ws)[j]? = some w ∧ IsGreatest (insert before (lengthsAt rows j)) w := by
  induction rows generalizing ws before with
  | nil =>
    have none : lengthsAt [] j = ∅ := by simp [lengthsAt]
    rw [none, insert_empty_eq]
    exact ⟨before, h, isGreatest_singleton⟩
  | cons row rest ih =>
    rw [List.foldl_cons]
    cases hr : row[j]? with
    | none =>
      have kept : (widen ws row)[j]? = some before := by
        rw [getElem?_widen, h, hr, Option.map_some, Option.elim_none, Nat.max_zero]
      rw [lengthsAt_cons_of_none hr]
      exact ih kept
    | some cell =>
      have widened : (widen ws row)[j]? = some (max before cell.length) := by
        rw [getElem?_widen, h, hr, Option.map_some, Option.elim_some]
      obtain ⟨w, hw, greatest⟩ := ih widened
      rw [lengthsAt_cons_of_some hr]
      exact ⟨w, hw, isGreatest_insert_of_max greatest⟩

/-- A column is as wide as the longest of its name and its cells. -/
theorem exists_isGreatest_widths {header : List String} (rows : List (List String)) {j : Nat} {name : String}
    (hn : header[j]? = some name) :
    ∃ w, (widths header rows)[j]? = some w ∧ IsGreatest (lengthsAt (header :: rows) j) w := by
  have first : (header.map String.length)[j]? = some name.length := by
    rw [List.getElem?_map, hn, Option.map_some]
  rw [lengthsAt_cons_of_some hn]
  exact exists_isGreatest_foldl first rows

/-- Cells fit widths: there are as many, and none is longer than its width. -/
def Fits (widths : List Nat) (cells : List String) : Prop :=
  List.Forall₂ (fun w cell => cell.length ≤ w) widths cells

/-- The header and every row of its length fit the widths. -/
theorem fits_widths {header row : List String} {rows : List (List String)} (hm : row ∈ header :: rows)
    (hl : row.length = header.length) : Fits (widths header rows) row := by
  refine List.forall₂_iff_get.mpr ⟨(length_widths header rows).trans hl.symm, ?_⟩
  intro j hw hr
  have hn : j < header.length := hl ▸ hr
  obtain ⟨w, found, -, bound⟩ := exists_isGreatest_widths rows (List.getElem?_eq_getElem hn)
  have width : (widths header rows)[j] = w := by
    rw [List.getElem?_eq_getElem hw] at found
    exact Option.some.inj found
  show row[j].length ≤ (widths header rows)[j]
  rw [width]
  exact bound ⟨row, hm, row[j], List.getElem?_eq_getElem hr, rfl⟩

/-- All columns can be padded exactly when no name and no cell is too long. -/
theorem isPrintable_iff {header : List String} {rows : List (List String)}
    (hl : ∀ row ∈ header :: rows, row.length = header.length) :
    isPrintable (widths header rows) = true ↔ ∀ row ∈ header :: rows, ∀ cell ∈ row, cell.length ≤ widest := by
  simp only [isPrintable, List.all_eq_true, decide_eq_true_iff]
  constructor
  · intro h row hm cell hc
    obtain ⟨j, hj, rfl⟩ := List.mem_iff_getElem.mp hc
    have fits := fits_widths hm (hl row hm)
    have hw : j < (widths header rows).length := fits.length_eq ▸ hj
    exact Nat.le_trans ((List.forall₂_iff_get.mp fits).2 j hw hj) (h _ (List.getElem_mem hw))
  · intro h w hw
    obtain ⟨j, hj, rfl⟩ := List.mem_iff_getElem.mp hw
    have hn : j < header.length := length_widths header rows ▸ hj
    obtain ⟨w, found, ⟨row, hm, cell, hc, longest⟩, -⟩ :=
      exists_isGreatest_widths rows (List.getElem?_eq_getElem hn)
    rw [List.getElem?_eq_getElem hj] at found
    rw [Option.some.inj found, ← longest]
    exact h row hm cell (List.mem_of_getElem? hc)

/-! ## Lines -/

/-- A cell of a width: a blank, the text with blanks before it up to the width, a blank and a separator. -/
def padded (width : Nat) (text : String) : List Char :=
  ' ' :: (List.replicate (width - text.length) ' ' ++ text.toList ++ [' ', '|'])

/-- Where a column starts: behind the first separator and the columns before it. -/
def start (widths : List Nat) (j : Nat) : Nat := 1 + ((widths.take j).map (· + 3)).sum

/-- A line shows cells: none is longer than the width of its column, and each stands in the range of its column. -/
structure Shows (widths : List Nat) (cells : List String) (line : List Char) : Prop where
  fits : Fits widths cells
  separator : line.head? = some '|'
  length_eq : line.length = 1 + (widths.map (· + 3)).sum
  column : ∀ j w cell, widths[j]? = some w → cells[j]? = some cell →
    (line.drop (start widths j)).take (w + 3) = padded w cell

variable {widths : List Nat} {cells : List String}

theorem toList_line (widths : List Nat) (cells : List String) :
    (line widths cells).toList = '|' :: (List.zipWith padded widths cells).flatten := by
  have same : ∀ w text, (cell w text).toList = padded w text := by
    intro w text
    simp [cell, padded]
  rw [line, String.toList_append, String.toList_join, List.flatMap_def, List.map_zipWith]
  simp only [same]
  rfl

theorem toList_rule (widths : List Nat) :
    (rule widths).toList = '|' :: widths.flatMap fun w => List.replicate (w + 2) '-' ++ ['|'] := by
  have dashes : ∀ w : Nat, ("-" ++ String.ofList (List.replicate w '-') ++ "-|").toList
      = List.replicate (w + 2) '-' ++ ['|'] := by
    intro w
    rw [List.replicate_succ, List.replicate_succ']
    simp
  rw [rule, String.toList_append, String.toList_join, List.flatMap_map]
  simp only [dashes]
  rfl

theorem length_padded {w : Nat} {text : String} (h : text.length ≤ w) : (padded w text).length = w + 3 := by
  simp only [padded, List.length_cons, List.length_append, List.length_replicate, String.length_toList,
    List.length_nil]
  omega

theorem length_padded_cells (h : Fits widths cells) :
    (List.zipWith padded widths cells).flatten.length = (widths.map (· + 3)).sum := by
  induction h with
  | nil => rfl
  | cons hc _ ih =>
    rw [List.zipWith_cons_cons, List.flatten_cons, List.length_append, length_padded hc, ih, List.map_cons,
      List.sum_cons]

theorem column_padded_cells (h : Fits widths cells) {j w : Nat} {cell : String} (hw : widths[j]? = some w)
    (hc : cells[j]? = some cell) :
    ((List.zipWith padded widths cells).flatten.drop ((widths.take j).map (· + 3)).sum).take (w + 3)
      = padded w cell := by
  induction h generalizing j with
  | nil => cases hw
  | cons first _ ih =>
    rw [List.zipWith_cons_cons, List.flatten_cons]
    cases j with
    | zero =>
      cases hw
      cases hc
      rw [List.take_zero, List.map_nil, List.sum_nil, List.drop_zero, List.take_left' (length_padded first)]
    | succ j =>
      rw [List.take_succ_cons, List.map_cons, List.sum_cons, ← length_padded first, List.drop_length_add_append]
      exact ih hw hc

/-- The line of cells that fit shows them. -/
theorem shows_line (h : Fits widths cells) : Shows widths cells (line widths cells).toList where
  fits := h
  separator := by rw [toList_line, List.head?_cons]
  length_eq := by rw [toList_line, List.length_cons, length_padded_cells h, Nat.add_comm]
  column j w cell hw hc := by
    rw [toList_line, start, Nat.add_comm 1, List.drop_succ_cons]
    exact column_padded_cells h hw hc

example : line [4, 6] ["Fox", "7777"] = "|  Fox |   7777 |" := by decide +kernel

theorem length_rule (widths : List Nat) : (rule widths).toList.length = 1 + (widths.map (· + 3)).sum := by
  have each : ∀ w, (List.replicate (w + 2) '-' ++ ['|']).length = w + 3 := by
    intro w
    rw [List.length_append, List.length_replicate, List.length_singleton]
  rw [toList_rule, List.length_cons, List.length_flatMap]
  simp only [each]
  exact Nat.add_comm ..

/-! ## Line feeds -/

/-- A line has no line feed if none of its cells has one. -/
theorem notMem_toList_line (h : ∀ cell ∈ cells, '\n' ∉ cell.toList) : '\n' ∉ (line widths cells).toList := by
  rw [toList_line, List.mem_cons, not_or]
  refine ⟨by decide, ?_⟩
  induction widths generalizing cells with
  | nil => exact List.not_mem_nil
  | cons w widths ih =>
    cases cells with
    | nil => exact List.not_mem_nil
    | cons text cells =>
      have first : '\n' ∉ padded w text := by
        simp [padded, h text List.mem_cons_self]
      rw [List.zipWith_cons_cons, List.flatten_cons, List.mem_append, not_or]
      exact ⟨first, ih fun cell hm => h cell (List.mem_cons_of_mem text hm)⟩

theorem notMem_toList_rule : '\n' ∉ (rule widths).toList := by
  rw [toList_rule]
  simp

theorem toList_unlines_cons (l : String) (rest : List String) :
    (unlines (l :: rest)).toList = l.toList ++ '\n' :: (unlines rest).toList := by
  simp [unlines]

/-- Lines without line feeds are the lines of the text that they are put together to, each ended by a line feed. -/
theorem splitOn_unlines {lines : List String} (h : ∀ l ∈ lines, '\n' ∉ l.toList) :
    (unlines lines).toList.splitOn '\n' = lines.map String.toList ++ [[]] := by
  induction lines with
  | nil => rfl
  | cons l rest ih =>
    have plain : ∀ c ∈ l.toList, (c == '\n') = false := by
      intro c hc
      rw [beq_eq_false_iff_ne]
      rintro rfl
      exact h l List.mem_cons_self hc
    rw [toList_unlines_cons, List.splitOn_eq_splitOnP,
      List.splitOnP_append_cons_of_forall_mem plain _ (beq_self_eq_true _), ← List.splitOn_eq_splitOnP,
      ih fun l hl => h l (List.mem_cons_of_mem _ hl)]
    rfl

theorem count_unlines {lines : List String} (h : ∀ l ∈ lines, '\n' ∉ l.toList) :
    (unlines lines).toList.count '\n' = lines.length := by
  induction lines with
  | nil => rfl
  | cons l rest ih =>
    rw [toList_unlines_cons, List.count_append, List.count_eq_zero.mpr (h l List.mem_cons_self), List.count_cons_self,
      ih fun l hl => h l (List.mem_cons_of_mem _ hl), List.length_cons, Nat.zero_add]

end Grid

namespace Table

/-! ## Tables -/

/-- No text of a table that is printed has a line feed. -/
structure OneLined (t : Table) : Prop where
  name : '\n' ∉ t.name.toList
  cells : ∀ row ∈ t.schema.names :: t.cells, ∀ cell ∈ row, '\n' ∉ cell.toList

/-- Some attribute name or some cell of a table is longer than cells can be padded. -/
def TooWide (t : Table) : Prop := ∃ row ∈ t.schema.names :: t.cells, ∃ cell ∈ row, Grid.widest < cell.length

/-- A text is the grid of a table: a title, a rule, a header, a rule, a line for each row, and a rule. -/
structure Aligned (t : Table) (grid : String) (widths : List Nat) (rule header : List Char)
    (rows : List (List Char)) : Prop where
  /-- Every line is ended by a line feed, and nothing is behind the last. -/
  lines : grid.toList.splitOn '\n' = [t.title.toList, rule, header, rule] ++ rows ++ [rule, []]
  /-- There are as many lines as rows, and five more. -/
  feeds : grid.toList.count '\n' = t.size + 5
  /-- Every column has a width. -/
  length_widths : widths.length = t.schema.arity
  /-- It is the greatest length among the name and the cells of the column. -/
  greatest : ∀ j w, widths[j]? = some w → IsGreatest (Grid.lengthsAt (t.schema.names :: t.cells) j) w
  rule_eq : rule = '|' :: widths.flatMap fun w => List.replicate (w + 2) '-' ++ ['|']
  shows_names : Grid.Shows widths t.schema.names header
  /-- The rows are shown in order, a line for each. -/
  shows_cells : List.Forall₂ (Grid.Shows widths) t.cells rows
  /-- All lines but the title have the same length. -/
  length_eq : ∀ line ∈ rule :: header :: rows, line.length = 1 + (widths.map (· + 3)).sum

variable {t : Table}

/-- Every row of a well-formed table has a cell for each attribute. -/
theorem WellFormed.length_cells (h : t.WellFormed) :
    ∀ row ∈ t.schema.names :: t.cells, row.length = t.schema.names.length := by
  intro row hm
  obtain rfl | hm := List.mem_cons.mp hm
  · rfl
  · obtain ⟨tuple, ht, rfl⟩ := List.mem_map.mp hm
    have fits : t.schema.Fits tuple := Schema.check_eq_ok_iff.mp (h.conforms tuple ht)
    rw [List.length_map, fits.length_eq]
    exact (List.length_map _).symm

/-- A table that is too wide is not printed, and any other one is. -/
theorem WellFormed.render?_eq (h : t.WellFormed) :
    (t.TooWide → t.render? = none) ∧ (¬ t.TooWide → t.render? = some t.render) := by
  have printable := Grid.isPrintable_iff h.length_cells
  constructor
  · intro wide
    obtain ⟨row, hm, cell, hc, long⟩ := wide
    rw [render?, if_neg]
    intro hp
    exact absurd (printable.mp hp row hm cell hc) (Nat.not_le.mpr long)
  · intro narrow
    rw [render?, if_pos]
    refine printable.mpr fun row hm cell hc => ?_
    by_contra long
    exact narrow ⟨row, hm, cell, hc, Nat.lt_of_not_le long⟩

/-- No line of the grid has a line feed. -/
theorem OneLined.gridLines (h : t.OneLined) : ∀ l ∈ t.gridLines, '\n' ∉ l.toList := by
  have title : '\n' ∉ t.title.toList := by
    rw [Table.title, String.toList_append, List.mem_append, not_or]
    exact ⟨by decide, h.name⟩
  intro l hl
  simp only [Table.gridLines, Grid.lines, List.mem_append, List.mem_cons, List.mem_map, List.not_mem_nil,
    or_false] at hl
  obtain ((rfl | rfl | rfl | rfl) | ⟨row, hm, rfl⟩) | rfl := hl
  · exact title
  · exact Grid.notMem_toList_rule
  · exact Grid.notMem_toList_line (h.cells _ List.mem_cons_self)
  · exact Grid.notMem_toList_rule
  · exact Grid.notMem_toList_line (h.cells row (List.mem_cons_of_mem _ hm))
  · exact Grid.notMem_toList_rule

/-- The grid of a well-formed table is aligned, however wide it is. -/
theorem WellFormed.aligned (h : t.WellFormed) (ho : t.OneLined) :
    let widths := Grid.widths t.schema.names t.cells
    t.Aligned t.render widths (Grid.rule widths).toList (Grid.line widths t.schema.names).toList
      (t.cells.map fun row => (Grid.line widths row).toList) := by
  intro widths
  have shows_of_mem : ∀ row ∈ t.schema.names :: t.cells, Grid.Shows widths row (Grid.line widths row).toList :=
    fun row hm => Grid.shows_line (Grid.fits_widths hm (h.length_cells row hm))
  have lengths : widths.length = t.schema.names.length := Grid.length_widths _ _
  exact {
    lines := by
      rw [render, Grid.splitOn_unlines ho.gridLines]
      simp [gridLines, Grid.lines, widths]
    feeds := by
      rw [render, Grid.count_unlines ho.gridLines]
      simp [gridLines, Grid.lines, cells, size]
    length_widths := lengths.trans (List.length_map _)
    greatest := by
      intro j w hw
      have hj : j < t.schema.names.length := by
        rw [← lengths]
        exact (List.getElem?_eq_some_iff.mp hw).1
      obtain ⟨found, hf, greatest⟩ := Grid.exists_isGreatest_widths t.cells (List.getElem?_eq_getElem hj)
      have same : w = found := Option.some.inj (hw.symm.trans hf)
      rw [same]
      exact greatest
    rule_eq := Grid.toList_rule widths
    shows_names := shows_of_mem _ List.mem_cons_self
    shows_cells := by
      rw [List.forall₂_map_right_iff, List.forall₂_same]
      intro row hm
      exact shows_of_mem row (List.mem_cons_of_mem _ hm)
    length_eq := by
      intro line hl
      obtain rfl | hl := List.mem_cons.mp hl
      · exact Grid.length_rule widths
      · rw [← List.map_cons (f := fun row => (Grid.line widths row).toList), List.mem_map] at hl
        obtain ⟨row, hm, rfl⟩ := hl
        exact (shows_of_mem row hm).length_eq }

/-- A reachable table of texts without line feeds is printed as a grid with aligned columns, unless a column is wider
than cells can be padded. Then it is not printed. -/
theorem printed_aligned_or_too_wide (h : t.Reachable) (ho : t.OneLined) :
    (t.TooWide → t.render? = none) ∧ (¬ t.TooWide → ∃ grid widths rule header rows,
      t.render? = some grid ∧ t.Aligned grid widths rule header rows) := by
  obtain ⟨wide, narrow⟩ := h.wellFormed.render?_eq
  refine ⟨wide, fun hw => ?_⟩
  exact ⟨_, _, _, _, _, narrow hw, h.wellFormed.aligned ho⟩

theorem printed_aligned_or_too_wide_levels :
    levels.Reachable ∧ levels.OneLined ∧ ¬ levels.TooWide ∧ ∃ grid widths rule header rows,
      levels.render? = some grid ∧ levels.Aligned grid widths rule header rows := by
  have plain : ∀ row ∈ levels.schema.names :: levels.cells, ∀ cell ∈ row,
      '\n' ∉ cell.toList ∧ cell.length ≤ Grid.widest := by decide +kernel
  have oneLined : levels.OneLined := ⟨by decide, fun row hm cell hc => (plain row hm cell hc).1⟩
  have narrow : ¬ levels.TooWide :=
    fun ⟨row, hm, cell, hc, long⟩ => absurd (plain row hm cell hc).2 (Nat.not_le.mpr long)
  exact ⟨reachable_levels, oneLined, narrow, (printed_aligned_or_too_wide reachable_levels oneLined).2 narrow⟩

/-! ### A table that is not printed -/

theorem oneLined_note {text : String} (h : '\n' ∉ text.toList) : (Snapshot.note text).OneLined where
  name := show '\n' ∉ "note".toList by decide
  cells := by
    have rows : (Snapshot.note text).schema.names :: (Snapshot.note text).cells = [["text"], [text]] := rfl
    rw [rows]
    simpa using h

theorem tooWide_note {text : String} (h : Grid.widest < text.length) : (Snapshot.note text).TooWide :=
  ⟨[text], List.mem_cons_of_mem _ List.mem_cons_self, text, List.mem_cons_self, h⟩

/-- A note of one letter more than cells can be padded to is not printed, although none of its texts has a line
feed. -/
theorem long_note_is_not_printed :
    let t := Snapshot.note (String.ofList (List.replicate 65536 'a'))
    t.Reachable ∧ t.OneLined ∧ t.render? = none := by
  intro t
  have wellFormed : t.WellFormed := Snapshot.wellFormed_note _
  have plain : '\n' ∉ (String.ofList (List.replicate 65536 'a')).toList := by
    rw [String.toList_ofList]
    exact fun hm => absurd (List.eq_of_mem_replicate hm) (by decide)
  have long : Grid.widest < (String.ofList (List.replicate 65536 'a')).length := by
    rw [← String.length_toList, String.toList_ofList, List.length_replicate]
    decide
  exact ⟨.ofTuples "note" .hash wellFormed.conforms, oneLined_note plain, wellFormed.render?_eq.1 (tooWide_note long)⟩

end Table

end Relata
