import Mathlib.Data.List.GetD
import Mathlib.Data.List.ProdSigma
import Relata.Proofs.Conditions
import Relata.Proofs.EquiJoins
/-!
# Joins on a comparison

A join on a comparison looks at one column of each side. Where the comparison is equality it is the equi-join on the two
names (`thetaJoin_run_eq_join_run`), since values that differ are not ordered as equal.

Any two values have one order, which turns round when they are exchanged. So a comparison and its complement share out
all pairs of rows, and a comparison with its sides exchanged is its converse (`comparisons_complement_and_converse`).
-/

namespace Relata

/-! ## Complements and converses -/

namespace Comparison

/-- The comparison that holds where the given one does not. -/
def complement : Comparison → Comparison
  | eq => ne
  | ne => eq
  | lt => ge
  | le => gt
  | gt => le
  | ge => lt

/-- The comparison that holds of two values where the given one holds of them the other way round. -/
def converse : Comparison → Comparison
  | eq => eq
  | ne => ne
  | lt => gt
  | le => ge
  | gt => lt
  | ge => le

theorem holds_complement (op : Comparison) (o : Ordering) : op.complement.holds o = !op.holds o := by
  cases op <;> cases o <;> rfl

theorem holds_converse (op : Comparison) (o : Ordering) : op.converse.holds o.swap = op.holds o := by
  cases op <;> cases o <;> rfl

theorem holds_eq_compare_iff {v w : Value} : eq.holds (compare v w) = true ↔ v = w := by
  rw [holds, beq_iff_eq, Std.LawfulEqOrd.compare_eq_iff_eq]

end Comparison

/-! ## Columns -/

theorem Schema.columns_singleton (s : Schema) (name : String) :
    s.columns [name] = (s.locate name).map fun p => [p.1] := by
  rw [columns, List.mapM_cons, List.mapM_nil, column, locate]
  cases hc : s.column? name with
  | none => rfl
  | some c =>
    obtain ⟨d, ha⟩ := column?_eq_some_iff_getElem?.mp hc
    simp only [ha]
    rfl

namespace Condition

variable {c : Condition} {left right : Schema}

theorem bindColumns_eq_ok_iff {i j : Nat} : c.bindColumns left right = .ok (i, j) ↔ ∃ d,
    left.attributes[i]? = some ⟨c.subject, d⟩ ∧ right.attributes[j]? = some ⟨c.operand, d⟩ := by
  simp only [bindColumns, bind_eq_ok_iff, ← Schema.locate_eq_ok_iff]
  constructor
  · rintro ⟨⟨i', d⟩, hl, ⟨j', e⟩, hr, ⟨⟩, same, h⟩
    obtain rfl : d = e := Value.checkDomains_eq_ok_iff.mp same
    cases h
    exact ⟨d, hl, hr⟩
  · rintro ⟨d, hl, hr⟩
    exact ⟨(i, d), hl, (j, d), hr, (), Value.checkDomains_eq_ok_iff.mpr rfl, rfl⟩

/-- An equi-join on one pair of names finds their columns where a comparison of the two does, and is refused as that
is. -/
theorem columns_eq_map_bindColumns (c : Condition) (left right : Schema) :
    Join.columns left right [c.subject] [c.operand] = (c.bindColumns left right).map fun p => ([p.1], [p.2]) := by
  rw [Join.columns, if_neg (by simp), Schema.columns_singleton, Schema.columns_singleton, bindColumns]
  cases hl : left.locate c.subject with
  | error fault => rfl
  | ok p =>
    cases hr : right.locate c.operand with
    | error fault => rfl
    | ok q =>
      show (Join.checkPairs left right [(p.1, q.1)] >>= fun _ => .ok ([p.1], [q.1]))
        = (Value.checkDomains p.2 q.2 >>= fun _ => .ok (p.1, q.1)).map _
      rw [Join.checkPairs]
      simp only [Schema.locate_eq_ok_iff.mp hl, Schema.locate_eq_ok_iff.mp hr]
      cases Value.checkDomains p.2 q.2 <;> rfl

theorem IsSubject.isOperand {s : String} (h : IsSubject s) : IsOperand s :=
  ⟨h.1, .of_forall fun x hx => (h.2 x hx).1⟩

end Condition

/-! ## Equality -/

namespace Join

theorem nested_congr {related related' : Tuple → Tuple → Bool} {lefts rights : List Tuple}
    (h : ∀ l ∈ lefts, ∀ r ∈ rights, related l r = related' l r) (together : Tuple → Tuple → Tuple) :
    nested related together lefts rights = nested related' together lefts rights := by
  apply List.flatMap_congr
  intro l hl
  rw [List.filter_congr (h l hl)]

/-- Values that differ are not ordered as equal. -/
theorem compared_eq_agree {a b : Tuple} {i j : Nat} (hi : i < a.length) (hj : j < b.length) :
    compared (Comparison.holds .eq) i j a b = agree [(i, j)] a b := by
  rw [Bool.eq_iff_iff, compared, Comparison.holds_eq_compare_iff, agree]
  simp [hi, hj]

end Join

namespace Operator

variable {t u : Table} {l r : String}

/-- A join on the equality of two names has the result of the equi-join on them. -/
theorem result_thetaJoin_eq_join (ht : t.WellFormed) (hu : u.WellFormed) {text : String}
    (hc : Condition.parse text = .ok ⟨l, .eq, r⟩) (suffix : String) :
    (thetaJoin text suffix).result [t, u] = (join [l] [r] suffix).result [t, u] := by
  have columns := Condition.columns_eq_map_bindColumns ⟨l, .eq, r⟩ t.schema u.schema
  rw [result_join ht hu rfl, result_join ht hu rfl, pairing, pairing, thetaPairing, equiPairing, columns, hc]
  show (Rejection.lift (Condition.bindColumns ⟨l, .eq, r⟩ t.schema u.schema) >>= fun _ => _).map _ = _
  cases hb : Condition.bindColumns ⟨l, .eq, r⟩ t.schema u.schema with
  | error fault => rfl
  | ok pair =>
    show (Rejection.lift (Join.schema t.schema u.schema suffix) >>= fun _ => _).map _
      = (Rejection.lift (Join.schema t.schema u.schema suffix) >>= fun _ => _).map _
    cases Join.schema t.schema u.schema suffix with
    | error fault => rfl
    | ok s =>
      obtain ⟨hl, hr⟩ := lt_of_bindColumns hb
      have rows : Join.nested (Join.compared (Comparison.holds .eq) pair.1 pair.2) (fun l r => l ++ r) t.tuples u.tuples
          = Join.nested (Join.agree [(pair.1, pair.2)]) (fun l r => l ++ r) t.tuples u.tuples := by
        apply Join.nested_congr
        intro a ha b hb
        have lefts := Table.length_of_conforms ht.conforms a ha
        have rights := Table.length_of_conforms hu.conforms b hb
        exact Join.compared_eq_agree (lefts ▸ hl) (rights ▸ hr)
      exact congrArg (fun rows => Except.ok (Result.mk t s rows)) rows

/-- A join on the equality of two names runs as the equi-join on them does. -/
theorem thetaJoin_run_eq_join_run (ht : t.Reachable) (hu : u.Reachable) (hl : Condition.IsSubject l)
    (hr : Condition.IsSubject r) (suffix : String) (session : Session) :
    (thetaJoin (l ++ " == " ++ r) suffix).run [t, u] session = (join [l] [r] suffix).run [t, u] session := by
  have text : l ++ " == " ++ r = Condition.render ⟨l, .eq, r⟩ := by
    have symbol : " == " = " " ++ "==" ++ " " := by decide
    simp only [Condition.render, Comparison.symbol, symbol, String.append_assoc]
  have parsed : Condition.parse (l ++ " == " ++ r) = .ok ⟨l, .eq, r⟩ := by
    rw [text]
    exact Condition.parse_of_spells (Condition.spells_render hl hr.isOperand)
  rw [run, run, result_thetaJoin_eq_join ht.wellFormed hu.wellFormed parsed]

/-- Two zeros of different signs do not match, and a NaN matches itself. -/
theorem thetaJoin_run_eq_join_run_rivers :
    let session : Session := ⟨"2", 0⟩
    Table.levels.Reachable ∧ Table.rivers.Reachable ∧ Condition.IsSubject "level"
      ∧ ((join ["level"] ["level"] "2").run [Table.levels, Table.rivers] session).1.toOption.map Table.size = some 4
      ∧ (thetaJoin ("level" ++ " == " ++ "level") "2").run [Table.levels, Table.rivers] session
        = (join ["level"] ["level"] "2").run [Table.levels, Table.rivers] session :=
  have hr : Table.rivers.Reachable := .ofTuples "rivers" .hash (by decide)
  have name : Condition.IsSubject "level" := by decide +kernel
  ⟨Table.reachable_levels, hr, name, by decide +kernel,
    thetaJoin_run_eq_join_run Table.reachable_levels hr name name "2" _⟩

end Operator

/-! ## Pairs of places -/

/-- How the values of two rows under two names are ordered, if both rows have them. -/
def Join.orderAt (left right : Schema) (l r : String) (a b : Tuple) : Option Ordering := do
  return compare (← (left.label a).lookup l) (← (right.label b).lookup r)

namespace Table

/-- The pairs of places of rows: for each place on the left in order those on the right in order. -/
def places (t u : Table) : List (Nat × Nat) := List.range t.size ×ˢ List.range u.size

/-- The rows at a pair of places, side by side. -/
def rowsAt (t u : Table) (p : Nat × Nat) : Tuple := t.tuples.getD p.1 [] ++ u.tuples.getD p.2 []

/-- The pairs of places where a comparison holds of the values under two names. -/
def placesWhere (t u : Table) (l : String) (op : Comparison) (r : String) : List (Nat × Nat) :=
  (t.places u).filter fun p =>
    (Join.orderAt t.schema u.schema l r (t.tuples.getD p.1 []) (u.tuples.getD p.2 [])).any op.holds

end Table

namespace Join

variable {left right : Schema} {l r : String} {i j : Nat}

/-- Rows that have the columns of two names have an order there, and it is what is looked at. -/
theorem exists_orderAt (hi : left.column? l = some i) (hj : right.column? r = some j) {a b : Tuple}
    (ha : a.length = left.arity) (hb : b.length = right.arity) :
    ∃ o, orderAt left right l r a b = some o ∧ ∀ holds, compared holds i j a b = holds o := by
  obtain ⟨v, hv⟩ : ∃ v, a[i]? = some v := ⟨_, List.getElem?_eq_getElem (ha ▸ Schema.column?_lt hi)⟩
  obtain ⟨w, hw⟩ : ∃ w, b[j]? = some w := ⟨_, List.getElem?_eq_getElem (hb ▸ Schema.column?_lt hj)⟩
  refine ⟨compare v w, ?_, fun holds => ?_⟩
  · rw [orderAt, Schema.label, Schema.label, Schema.lookup_zip, Schema.lookup_zip, hi, hj, Option.bind_some,
      Option.bind_some, hv, hw]
    rfl
  · rw [compared, hv, hw]
    rfl

theorem compared_converse (op : Comparison) (i j : Nat) (a b : Tuple) :
    compared op.converse.holds j i b a = compared op.holds i j a b := by
  rw [compared, compared, Std.OrientedOrd.eq_swap, Comparison.holds_converse]

/-- The rows of a nested loop, by the places where their parts stand. -/
theorem nested_eq_map_places (related : Tuple → Tuple → Bool) (together : Tuple → Tuple → Tuple)
    (lefts rights : List Tuple) : nested related together lefts rights
      = ((List.range lefts.length ×ˢ List.range rights.length).filter fun p =>
          related (lefts.getD p.1 []) (rights.getD p.2 [])).map fun p =>
        together (lefts.getD p.1 []) (rights.getD p.2 []) := by
  have all : ∀ rows : List Tuple, (List.range rows.length).map (rows.getD · []) = rows := by
    intro rows
    apply List.ext_getElem
    · simp
    · intro i _ h
      simp [h]
  conv_lhs => rw [← all lefts, ← all rights]
  simp only [nested, SProd.sprod, List.product, List.flatMap_map, List.filter_map, List.filter_flatMap,
    List.map_flatMap, List.map_map]
  rfl

end Join

namespace Table

variable {t u : Table} {l r : String} {i j : Nat}

section Places

variable (ht : t.WellFormed) (hu : u.WellFormed)
include ht hu

theorem length_of_mem_places {p : Nat × Nat} (hp : p ∈ t.places u) :
    (t.tuples.getD p.1 []).length = t.schema.arity ∧ (u.tuples.getD p.2 []).length = u.schema.arity := by
  obtain ⟨hl, hr⟩ := List.mem_product.mp hp
  have hl : p.1 < t.tuples.length := List.mem_range.mp hl
  have hr : p.2 < u.tuples.length := List.mem_range.mp hr
  rw [List.getD_eq_getElem _ _ hl, List.getD_eq_getElem _ _ hr]
  exact ⟨length_of_conforms ht.conforms _ (List.getElem_mem hl), length_of_conforms hu.conforms _ (List.getElem_mem hr)⟩

variable (hi : t.schema.column? l = some i) (hj : u.schema.column? r = some j) (op : Comparison)
include hi hj

/-- What a join on a comparison finds are the rows at the pairs of places where the comparison holds. -/
theorem nested_compared_eq : Join.nested (Join.compared op.holds i j) (fun a b => a ++ b) t.tuples u.tuples
    = (t.placesWhere u l op r).map (t.rowsAt u) := by
  rw [Join.nested_eq_map_places]
  apply congrArg (List.map (t.rowsAt u))
  apply List.filter_congr
  intro p hp
  obtain ⟨lefts, rights⟩ := length_of_mem_places ht hu hp
  obtain ⟨o, ho, same⟩ := Join.exists_orderAt hi hj lefts rights
  rw [same, ho, Option.any_some]

/-- A comparison and its complement share out all pairs of places. -/
theorem splits_placesWhere :
    Splits (t.places u) (t.placesWhere u l op r) (t.placesWhere u l op.complement r) := by
  apply splits_filter
  intro p hp
  obtain ⟨lefts, rights⟩ := length_of_mem_places ht hu hp
  obtain ⟨o, ho, -⟩ := Join.exists_orderAt hi hj lefts rights
  rw [ho, Option.any_some, Option.any_some, Comparison.holds_complement]

end Places

/-- A join on a comparison of two names with one domain has a result. -/
theorem exists_eval_thetaJoin (ht : t.WellFormed) (hu : u.WellFormed) {d : Domain}
    (hi : t.schema.attributes[i]? = some ⟨l, d⟩) (hj : u.schema.attributes[j]? = some ⟨r, d⟩) {text : String}
    {op : Comparison} (hc : Condition.parse text = .ok ⟨l, op, r⟩) (suffix : String) (session : Session) :
    ∃ w, (Operator.thetaJoin text suffix).eval [t, u] session = .ok w
      ∧ w.1.tuples = Join.nested (Join.compared op.holds i j) (fun a b => a ++ b) t.tuples u.tuples := by
  obtain ⟨s, hs⟩ := Join.exists_schema t.schema u.schema suffix
  have bound : Condition.bindColumns ⟨l, op, r⟩ t.schema u.schema = .ok (i, j) :=
    Condition.bindColumns_eq_ok_iff.mpr ⟨d, hi, hj⟩
  have pairing : (Operator.thetaJoin text suffix).pairing t.schema u.schema
      = .ok ⟨s, Join.compared op.holds i j, id⟩ := by
    rw [Operator.pairing, Operator.thetaPairing, hc]
    show (Rejection.lift (Condition.bindColumns ⟨l, op, r⟩ t.schema u.schema) >>= _) = _
    rw [bound]
    show (Rejection.lift (Join.schema t.schema u.schema suffix) >>= _) = _
    rw [hs]
    rfl
  exact ⟨_, (Operator.eval_join_eq_ok_iff ht hu rfl).mpr ⟨_, pairing, rfl⟩, rfl⟩

end Table

/-! ## Filters -/

namespace BoundCondition

/-- The condition that is satisfied where the given one is not. -/
def complement (b : BoundCondition) : BoundCondition := { b with comparison := b.comparison.complement }

theorem satisfied_complement {b : BoundCondition} {row : Tuple} (h : b.column < row.length) :
    b.complement.satisfied row = !b.satisfied row := by
  rw [satisfied, satisfied, matches?, matches?, complement, List.getElem?_eq_getElem h, Option.map_some,
    Option.map_some, Option.getD_some, Option.getD_some, Comparison.holds_complement]

end BoundCondition

theorem Condition.bindLiteral_complement (name operand : String) (op : Comparison) (s : Schema) :
    bindLiteral ⟨name, op.complement, operand⟩ s
      = (bindLiteral ⟨name, op, operand⟩ s).map BoundCondition.complement := by
  unfold bindLiteral
  cases s.locate name with
  | error fault => rfl
  | ok pair =>
    show (Value.parse pair.2 operand >>= _) = (Value.parse pair.2 operand >>= _).map _
    cases Value.parse pair.2 operand <;> rfl

namespace Table

variable {t u : Table}

/-- A filter and the one on the complement are refused in the same way, or share out the rows. -/
theorem eval_filter_complement (ht : t.WellFormed) {name operand text text' : String} {op : Comparison}
    (hc : Condition.parse text = .ok ⟨name, op, operand⟩)
    (hc' : Condition.parse text' = .ok ⟨name, op.complement, operand⟩) (session : Session) :
    (∃ rejection, (Operator.filter text).eval [t] session = .error rejection
        ∧ (Operator.filter text').eval [t] session = .error rejection)
      ∨ ∃ w w', (Operator.filter text).eval [t] session = .ok w ∧ (Operator.filter text').eval [t] session = .ok w'
        ∧ Splits t.tuples w.1.tuples w'.1.tuples := by
  rw [Operator.eval_eq, Operator.eval_eq, Operator.result_filter ht hc, Operator.result_filter ht hc',
    Condition.bindLiteral_complement]
  cases hb : Condition.bindLiteral ⟨name, op, operand⟩ t.schema with
  | error fault => exact .inl ⟨_, rfl, rfl⟩
  | ok b =>
    refine .inr ⟨_, _, rfl, rfl, ?_⟩
    apply splits_filter
    intro row hr
    have there := Condition.column_lt hb
    rw [← length_of_conforms ht.conforms row hr] at there
    exact BoundCondition.satisfied_complement there

/-- A join on a comparison of two names has the rows at the pairs of places where the comparison holds, and the one on
its complement those at all others. With its sides exchanged it is the join on the converse, which has the same rows in
another order and with the left columns last. A filter on a comparison with a literal and the one on its complement
share out the rows of any table. -/
theorem comparisons_complement_and_converse (ht : t.Reachable) :
    (∀ {u : Table}, u.Reachable → ∀ {l r : String} {d : Domain}, ⟨l, d⟩ ∈ t.schema.attributes →
        ⟨r, d⟩ ∈ u.schema.attributes → ∀ (op : Comparison) (text : String), Condition.Spells ⟨l, op, r⟩ text →
        ∀ (suffix : String) (session : Session),
        ∃ w, (Operator.thetaJoin text suffix).eval [t, u] session = .ok w
          ∧ w.1.tuples = (t.placesWhere u l op r).map (t.rowsAt u)
          ∧ (∀ text', Condition.Spells ⟨l, op.complement, r⟩ text' →
            ∃ w', (Operator.thetaJoin text' suffix).eval [t, u] session = .ok w'
              ∧ w'.1.tuples = (t.placesWhere u l op.complement r).map (t.rowsAt u)
              ∧ Splits (t.places u) (t.placesWhere u l op r) (t.placesWhere u l op.complement r)
              ∧ w.1.size + w'.1.size = t.size * u.size)
          ∧ ∀ text', Condition.Spells ⟨r, op.converse, l⟩ text' → ∀ (suffix' : String) (session' : Session),
            ∃ w', (Operator.thetaJoin text' suffix').eval [u, t] session' = .ok w'
              ∧ w.1.tuples.Perm (w'.1.tuples.map (Tuple.exchange u.schema.arity)))
      ∧ ∀ {name operand : String} (op : Comparison) {text text' : String}, Condition.Spells ⟨name, op, operand⟩ text →
        Condition.Spells ⟨name, op.complement, operand⟩ text' → ∀ session : Session,
        (∃ rejection, (Operator.filter text).eval [t] session = .error rejection
            ∧ (Operator.filter text').eval [t] session = .error rejection)
          ∨ ∃ w w', (Operator.filter text).eval [t] session = .ok w ∧ (Operator.filter text').eval [t] session = .ok w'
            ∧ Splits t.tuples w.1.tuples w'.1.tuples := by
  have ht := ht.wellFormed
  constructor
  · intro u hu l r d hl hr op text spelled suffix session
    have hu := hu.wellFormed
    obtain ⟨i, hi⟩ := List.mem_iff_getElem?.mp hl
    obtain ⟨j, hj⟩ := List.mem_iff_getElem?.mp hr
    have column := Schema.column?_eq_some_iff_getElem?.mpr ⟨d, hi⟩
    have column' := Schema.column?_eq_some_iff_getElem?.mpr ⟨d, hj⟩
    obtain ⟨w, hw, rows⟩ := exists_eval_thetaJoin ht hu hi hj (Condition.parse_of_spells spelled) suffix session
    have placed := rows.trans (nested_compared_eq ht hu column column' op)
    refine ⟨w, hw, placed, ?_, ?_⟩
    · intro text' spelled'
      obtain ⟨w', hw', rows'⟩ := exists_eval_thetaJoin ht hu hi hj (Condition.parse_of_spells spelled') suffix session
      have placed' := rows'.trans (nested_compared_eq ht hu column column' op.complement)
      have shared := splits_placesWhere ht hu column column' op
      refine ⟨w', hw', placed', shared, ?_⟩
      have lengths := shared.length_eq
      rw [places, List.length_product, List.length_range, List.length_range] at lengths
      rw [← lengths, size, size, placed, placed', List.length_map, List.length_map]
    · intro text' spelled' suffix' session'
      obtain ⟨w', hw', rows'⟩ := exists_eval_thetaJoin hu ht hj hi (Condition.parse_of_spells spelled') suffix' session'
      refine ⟨w', hw', ?_⟩
      rw [rows, rows']
      apply Join.nested_perm_exchange _ (length_of_conforms hu.conforms)
      intro a b
      exact (Join.compared_converse op i j b a).symm
  · intro name operand op text text' spelled spelled' session
    exact eval_filter_complement ht (Condition.parse_of_spells spelled) (Condition.parse_of_spells spelled') session

/-- The order of the levels is total: a NaN is above all numbers, and the negative zero below the other one. -/
theorem comparisons_complement_and_converse_rivers :
    let session : Session := ⟨"2", 0⟩
    let less := (Operator.thetaJoin "level<level" "2").eval [levels, rivers] session
    let rest := (Operator.thetaJoin "level >= level" "2").eval [levels, rivers] session
    let turned := (Operator.thetaJoin "level > level" "2").eval [rivers, levels] session
    levels.Reachable ∧ rivers.Reachable ∧ ⟨"level", .double⟩ ∈ levels.schema.attributes
      ∧ ⟨"level", .double⟩ ∈ rivers.schema.attributes ∧ Condition.Spells ⟨"level", .lt, "level"⟩ "level<level"
      ∧ Condition.Spells ⟨"level", .ge, "level"⟩ "level >= level"
      ∧ Condition.Spells ⟨"level", .gt, "level"⟩ "level > level"
      ∧ Condition.Spells ⟨"site", .lt, "Duved"⟩ "site < Duved" ∧ Condition.Spells ⟨"site", .ge, "Duved"⟩ "site>=Duved"
      ∧ (∃ w w' w'', less = .ok w ∧ rest = .ok w' ∧ turned = .ok w''
        ∧ levels.placesWhere rivers "level" .lt "level" = [(1, 0), (1, 3), (2, 0)]
        ∧ w.1.tuples = (levels.placesWhere rivers "level" .lt "level").map (levels.rowsAt rivers)
        ∧ w.1.size + w'.1.size = levels.size * rivers.size
        ∧ w.1.tuples.Perm (w''.1.tuples.map (Tuple.exchange 2)))
      ∧ ∃ w w', (Operator.filter "site < Duved").eval [levels] session = .ok w
        ∧ (Operator.filter "site>=Duved").eval [levels] session = .ok w'
        ∧ Splits levels.tuples w.1.tuples w'.1.tuples := by
  intro session less rest turned
  have hr : rivers.Reachable := .ofTuples "rivers" .hash (by decide)
  have hl : ⟨"level", .double⟩ ∈ levels.schema.attributes := by decide
  have hl' : ⟨"level", .double⟩ ∈ rivers.schema.attributes := by decide
  have lt : Condition.Spells ⟨"level", .lt, "level"⟩ "level<level" := Condition.spells_of_parse (by decide +kernel)
  have ge : Condition.Spells ⟨"level", .ge, "level"⟩ "level >= level" := Condition.spells_of_parse (by decide +kernel)
  have gt : Condition.Spells ⟨"level", .gt, "level"⟩ "level > level" := Condition.spells_of_parse (by decide +kernel)
  have before : Condition.Spells ⟨"site", .lt, "Duved"⟩ "site < Duved" := Condition.spells_of_parse (by decide +kernel)
  have after : Condition.Spells ⟨"site", .ge, "Duved"⟩ "site>=Duved" := Condition.spells_of_parse (by decide +kernel)
  obtain ⟨joined, filtered⟩ := comparisons_complement_and_converse reachable_levels
  refine ⟨reachable_levels, hr, hl, hl', lt, ge, gt, before, after, ?_, ?_⟩
  · obtain ⟨w, hw, rows, complement, converse⟩ := joined hr hl hl' .lt "level<level" lt "2" session
    obtain ⟨w', hw', -, -, sizes⟩ := complement "level >= level" ge
    obtain ⟨w'', hw'', same⟩ := converse "level > level" gt "2" session
    exact ⟨w, w', w'', hw, hw', hw'', by decide +kernel, rows, sizes, same⟩
  · rcases filtered .lt before after session with ⟨rejection, refused, -⟩ | shared
    · have size : ((Operator.filter "site < Duved").eval [levels] session).toOption.map (fun w => w.1.size) = some 1 := by
        decide +kernel
      rw [refused] at size
      cases size
    · exact shared

end Table

end Relata
