import Relata.Proofs.CommonColumns
import Relata.Proofs.Insertions
/-!
# Natural joins over the same columns

Where both sides have the same attributes a natural join compares every column and adds none (`layout_of_same`), so it
lists each left row as often as it occurs on the right. It is the intersection where no right row is repeated, and a
table joined to itself stays as it is where none of its rows is (`naturalJoin_same_columns`).
-/

namespace Relata

/-! ## Layouts -/

namespace Join

variable {left right : Schema} (h : left.attributes = right.attributes)
include h

theorem names_of_same : left.names = right.names := congrArg (List.map Attribute.name) h

theorem column?_of_same (name : String) : left.column? name = right.column? name := by
  rw [Schema.column?, Schema.column?, h]

theorem furtherColumns_of_same : left.furtherColumns right = [] := by
  rw [Schema.furtherColumns, List.filter_eq_nil_iff]
  intro c hc
  have hl : c < right.names.length := by
    rw [Schema.length_names]
    exact List.mem_range.mp hc
  have common : right.names[c] ∈ left.commonNames right := by
    rw [Schema.mem_commonNames_iff, names_of_same h]
    exact ⟨List.getElem_mem hl, List.getElem_mem hl⟩
  simp [List.getElem?_eq_getElem hl, common]

theorem agree_of_same {lay : Layout} (hy : layout left right = .ok lay) {l r : Tuple} (hl : l.length = left.arity)
    (hr : r.length = left.arity) : agree lay.common l r = true ↔ r = l := by
  rw [agree, List.all_eq_true]
  refine ⟨fun all => ?_, fun same => ?_⟩
  · apply List.ext_getElem?
    intro i
    by_cases hi : i < left.names.length
    · -- The name of the column stands for it on both sides.
      have hc : left.column? left.names[i] = some i := Schema.column?_eq_some_iff.mpr (List.getElem?_eq_getElem hi)
      have common : left.names[i] ∈ left.commonNames right := by
        rw [Schema.mem_commonNames_iff, ← names_of_same h]
        exact ⟨List.getElem_mem hi, List.getElem_mem hi⟩
      have pair : (i, i) ∈ lay.common :=
        (mem_common_iff_of_layout hy).mpr ⟨_, common, hc, (column?_of_same h _).symm.trans hc⟩
      exact (eq_of_beq (all (i, i) pair)).symm
    · rw [Schema.length_names] at hi
      rw [List.getElem?_eq_none (by omega), List.getElem?_eq_none (by omega)]
  · intro p hp
    obtain ⟨name, -, hc, hd⟩ := (mem_common_iff_of_layout hy).mp hp
    rw [← column?_of_same h, hc] at hd
    rw [same, Option.some.inj hd, beq_self_eq_true]

/-- Two sides with the same attributes have a layout: every column is compared, and no further one is kept. -/
theorem layout_of_same : ∃ lay, layout left right = .ok lay ∧ lay.schema = left ∧ lay.kept = []
    ∧ ∀ l r : Tuple, l.length = left.arity → r.length = left.arity → (agree lay.common l r = true ↔ r = l) := by
  have labels : left.labels = right.labels := by rw [Schema.labels_eq_map, Schema.labels_eq_map, h]
  have agree : Labels.Agree left.labels right.labels := by
    intro name d e hd he
    rw [← labels, hd] at he
    exact Option.some.inj he
  obtain ⟨lay, hy, merges⟩ := layout_of_agree agree
  have kept : lay.kept = [] := (kept_eq_furtherColumns hy).trans (furtherColumns_of_same h)
  refine ⟨lay, hy, ?_, kept, fun l r hl hr => agree_of_same h hy hl hr⟩
  apply Schema.eq_of_attributes_key _ merges.key_eq
  rw [(layout_eq_ok hy).2.2, kept, List.filterMap_nil, List.append_nil]

end Join

/-! ## Rows -/

/-- What is listed as often as it occurs in a list without repetitions is what occurs there. -/
theorem flatMap_replicate_count {α : Type} [BEq α] [LawfulBEq α] (left : List α) {right : List α} (hn : right.Nodup) :
    (left.flatMap fun a => List.replicate (right.count a) a) = left.filter fun a => a ∈ right := by
  induction left with
  | nil => rfl
  | cons a left ih =>
    rw [List.flatMap_cons, ih, hn.count]
    by_cases ha : a ∈ right <;> simp [ha]

namespace Table

variable {t u : Table}

/-- Over the same columns a natural join lists each left row as often as it occurs on the right. -/
theorem gives_naturalJoin_of_same (ht : t.WellFormed) (hu : u.WellFormed)
    (h : t.schema.attributes = u.schema.attributes) (session : Session) :
    Gives (t.naturalJoin u session) t.schema t.indexKind
      (t.tuples.flatMap fun row => List.replicate (u.tuples.count row) row) := by
  obtain ⟨lay, hy, schema, kept, agree⟩ := Join.layout_of_same h
  have arities : u.schema.arity = t.schema.arity := congrArg List.length h.symm
  have rows : Join.nested (Join.agree lay.common) (fun l r => l ++ r.project lay.kept) t.tuples u.tuples
      = t.tuples.flatMap fun row => List.replicate (u.tuples.count row) row := by
    apply List.flatMap_congr
    intro l hl
    have same : u.tuples.filter (Join.agree lay.common l) = u.tuples.filter fun r => r = l := by
      apply List.filter_congr
      intro r hr
      have lengths := (length_of_conforms hu.conforms r hr).trans arities
      rw [Bool.eq_iff_iff, decide_eq_true_iff]
      exact agree l r (length_of_conforms ht.conforms l hl) lengths
    have added : (fun r : Tuple => l ++ r.project lay.kept) = fun _ => l := by
      funext r
      rw [kept]
      exact List.append_nil l
    show (u.tuples.filter (Join.agree lay.common l)).map (fun r => l ++ r.project lay.kept) = _
    rw [same, List.filter_eq, added, List.map_replicate]
  have made : t.naturalJoin u session = .ok _ := (naturalJoin_eq_ok_iff ht hu).mpr ⟨lay, hy, rfl⟩
  rw [rows, schema] at made
  exact ⟨_, _, made⟩

/-- A natural join over the same columns is an intersection that counts the right rows: it lists each left row as often
as it occurs on the right. Where no right row is repeated it is the intersection, and a table without repeated rows
stays as it is when it is joined to itself. -/
theorem naturalJoin_same_columns (ht : t.Reachable) (hu : u.Reachable)
    (h : t.schema.attributes = u.schema.attributes) (session session' : Session) :
    (∃ w, t.naturalJoin u session = .ok w ∧ w.1.schema = t.schema
        ∧ w.1.tuples = t.tuples.flatMap fun row => List.replicate (u.tuples.count row) row)
      ∧ (u.tuples.Nodup → SameResult (t.naturalJoin u session) (t.intersect u session'))
      ∧ (t.tuples.Nodup → ∃ w, t.naturalJoin t session = .ok w ∧ w.1.SameContent t) := by
  have joined := gives_naturalJoin_of_same ht.wellFormed hu.wellFormed h session
  refine ⟨?_, fun hn => ?_, fun hn => ?_⟩
  · obtain ⟨name, next, made⟩ := joined
    exact ⟨_, made, rfl, rfl⟩
  · have domains : t.schema.domains = u.schema.domains := congrArg (List.map Attribute.domain) h
    rw [flatMap_replicate_count _ hn] at joined
    exact joined.sameResult (gives_intersect rfl domains)
  · have own := gives_naturalJoin_of_same ht.wellFormed ht.wellFormed rfl session
    have all : (t.tuples.filter fun row => row ∈ t.tuples) = t.tuples :=
      List.filter_eq_self.mpr fun row hr => decide_eq_true hr
    rw [flatMap_replicate_count _ hn, all] at own
    obtain ⟨name, next, made⟩ := own
    refine ⟨_, made, ?_⟩
    -- Nothing but its name is new to the table.
    have same := sameContent_ofTuples name t.name (rfl : t.schema = _) (rfl : t.indexKind = _) (rfl : t.tuples = _)
    rwa [← eq_ofTuples_of_reachable ht] at same

/-- Of the heights one row comes twice, so it comes four times when they are joined to themselves. No level is repeated,
and the sites come twice. -/
theorem naturalJoin_same_columns_heights :
    let session : Session := ⟨"2", 0⟩
    heights.Reachable ∧ levels.Reachable ∧ heights.schema.attributes = levels.schema.attributes
      ∧ levels.tuples.Nodup ∧ ¬heights.tuples.Nodup
      ∧ (∃ w, heights.naturalJoin heights session = .ok w ∧ w.1.size = 6)
      ∧ SameResult (heights.naturalJoin levels session) (heights.intersect levels session)
      ∧ ∃ w, levels.naturalJoin levels session = .ok w ∧ w.1.SameContent levels := by
  intro session
  have hh : heights.Reachable := .ofTuples "heights" .hash (by decide)
  have columns : heights.schema.attributes = levels.schema.attributes := by decide
  have distinct : levels.tuples.Nodup := by decide
  obtain ⟨w, hw, -, rows⟩ := (naturalJoin_same_columns hh hh rfl session session).1
  refine ⟨hh, reachable_levels, columns, distinct, by decide, ⟨w, hw, ?_⟩, ?_, ?_⟩
  · rw [size, rows]
    decide +kernel
  · exact (naturalJoin_same_columns hh reachable_levels columns session session).2.1 distinct
  · exact (naturalJoin_same_columns reachable_levels reachable_levels rfl session session).2.2 distinct

end Table

end Relata
