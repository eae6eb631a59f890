import Relata.Proofs.JoinSchemas
import Relata.Proofs.Pairing
/-!
# Selections below joins

A selection on a literal can be made before a join instead of after it. A condition on a left-hand attribute reads the
same column on both sides of any join (`filter_join_left`). A condition on a right-hand attribute does where
the join keeps the name of that attribute (`filter_join_right`). It need not: an attribute that is renamed may take the
name of one that comes later (`renamed_attribute_hides_name`).
-/

namespace Relata

/-! ## Bound conditions -/

theorem Schema.locate_eq_ok_iff {s : Schema} {name : String} {i : Nat} {d : Domain} :
    s.locate name = .ok (i, d) ↔ s.attributes[i]? = some ⟨name, d⟩ := by
  constructor
  · intro h
    rw [locate] at h
    cases hc : s.column? name with
    | none => rw [hc] at h; cases h
    | some j =>
      have named := column?_eq_some_iff.mp hc
      rw [names, List.getElem?_map] at named
      obtain ⟨a, ha, hn⟩ := Option.map_eq_some_iff.mp named
      simp only [hc, ha] at h
      cases h
      rw [ha, ← hn]
  · intro h
    have hc : s.column? name = some i := column?_eq_some_iff.mpr (by rw [names, List.getElem?_map, h]; rfl)
    rw [locate]
    simp only [hc, h]

namespace Condition

variable {c : Condition} {s left : Schema} {b : BoundCondition}

theorem bindLiteral_eq_ok_iff : c.bindLiteral s = .ok b ↔ ∃ d, s.attributes[b.column]? = some ⟨c.subject, d⟩
    ∧ Value.parse d c.operand = .ok b.value ∧ b.comparison = c.comparison := by
  constructor
  · intro h
    obtain ⟨⟨i, d⟩, hl, h⟩ := exists_of_bind_eq_ok h
    obtain ⟨v, hv, h⟩ := exists_of_bind_eq_ok h
    cases h
    exact ⟨d, Schema.locate_eq_ok_iff.mp hl, hv, rfl⟩
  · intro ⟨d, hl, hv, hc⟩
    rw [bindLiteral, Schema.locate_eq_ok_iff.mpr hl]
    show (Value.parse d c.operand >>= _) = _
    rw [hv, ← hc]
    rfl

/-- Attributes that follow do not change what a condition is bound to. -/
theorem bindLiteral_append {more : List Attribute} (h : s.attributes = left.attributes ++ more)
    (hs : c.subject ∈ left.names) : c.bindLiteral s = c.bindLiteral left := by
  obtain ⟨a, ha, hn⟩ := List.mem_map.mp hs
  obtain ⟨i, hi⟩ := List.mem_iff_getElem?.mp ha
  have there : left.locate c.subject = .ok (i, a.domain) := Schema.locate_eq_ok_iff.mpr (by rw [hi, ← hn])
  have still : s.locate c.subject = .ok (i, a.domain) := by
    rw [Schema.locate_eq_ok_iff] at there ⊢
    obtain ⟨hl, -⟩ := List.getElem?_eq_some_iff.mp there
    rw [h, List.getElem?_append_left hl, there]
  rw [bindLiteral, bindLiteral, there, still]

theorem column_lt (h : c.bindLiteral s = .ok b) : b.column < s.arity := by
  obtain ⟨d, ha, -, -⟩ := bindLiteral_eq_ok_iff.mp h
  exact (List.getElem?_eq_some_iff.mp ha).1

end Condition

namespace BoundCondition

/-- The condition on the column that comes so many columns later. -/
def shift (n : Nat) (b : BoundCondition) : BoundCondition := { b with column := n + b.column }

theorem satisfied_append_left {b : BoundCondition} {l : Tuple} (h : b.column < l.length) (r : Tuple) :
    b.satisfied (l ++ r) = b.satisfied l := by
  rw [satisfied, satisfied, matches?, matches?, List.getElem?_append_left h]

theorem satisfied_append_right (b : BoundCondition) (l r : Tuple) :
    (b.shift l.length).satisfied (l ++ r) = b.satisfied r := by
  rw [satisfied, satisfied, matches?, matches?, shift, List.getElem?_append_right (Nat.le_add_right ..),
    Nat.add_sub_cancel_left]

end BoundCondition

/-! ## Nested loops -/

namespace Join

section Nested

variable {related : Tuple → Tuple → Bool} {together : Tuple → Tuple → Tuple} {left right : List Tuple}
  {keep : Tuple → Bool}

/-- Rows that are kept for their left part may be left out before they are paired. -/
theorem filter_nested_left {early : Tuple → Bool} (h : ∀ l ∈ left, ∀ r ∈ right, keep (together l r) = early l) :
    (nested related together left right).filter keep = nested related together (left.filter early) right := by
  induction left with
  | nil => rfl
  | cons l left ih =>
    have later := ih fun m hm => h m (List.mem_cons_of_mem l hm)
    -- Of the rows made with one left row all are kept or none.
    have same : ∀ row ∈ (right.filter (related l)).map (together l), keep row = early l := by
      intro row hr
      obtain ⟨r, hm, he⟩ := List.mem_map.mp hr
      rw [← he]
      exact h l List.mem_cons_self r (List.mem_filter.mp hm).1
    rw [nested_cons, List.filter_append, later, List.filter_congr same, List.filter_cons]
    cases early l with
    | true => rw [if_pos rfl, nested_cons, List.filter_true]
    | false => rw [if_neg Bool.false_ne_true, List.filter_false, List.nil_append]

theorem filter_nested_right {early : Tuple → Bool} (h : ∀ l ∈ left, ∀ r ∈ right, keep (together l r) = early r) :
    (nested related together left right).filter keep = nested related together left (right.filter early) := by
  induction left with
  | nil => rfl
  | cons l left ih =>
    have later := ih fun m hm => h m (List.mem_cons_of_mem l hm)
    have same : (right.filter (related l)).filter (keep ∘ together l) = (right.filter early).filter (related l) := by
      rw [List.filter_filter, List.filter_filter]
      apply List.filter_congr
      intro r hr
      rw [Function.comp_apply, h l List.mem_cons_self r hr, Bool.and_comm]
    rw [nested_cons, nested_cons, List.filter_append, later, List.filter_map, same]

end Nested

end Join

/-! ## Schemas of pairings -/

namespace Operator

/-- The suffix for names that are taken, of a join that keeps all columns of both sides. -/
def suffix? : Operator → Option String
  | join _ _ suffix => some suffix
  | indexJoin _ _ suffix => some suffix
  | hashJoin _ _ suffix => some suffix
  | thetaJoin _ suffix => some suffix
  | _ => none

variable {op : Operator} {left right : Schema} {p : Join.Pairing} {l r : List String} {suffix condition : String}

theorem schema_of_equiPairing (h : equiPairing l r suffix left right = .ok p) :
    Join.schema left right suffix = .ok p.schema ∧ p.added = id := by
  obtain ⟨pair, -, h⟩ := exists_of_bind_eq_ok h
  obtain ⟨s, hs, h⟩ := exists_of_bind_eq_ok h
  cases h
  exact ⟨lift_eq_ok_iff.mp hs, rfl⟩

theorem schema_of_thetaPairing (h : thetaPairing condition suffix left right = .ok p) :
    Join.schema left right suffix = .ok p.schema ∧ p.added = id := by
  obtain ⟨c, -, h⟩ := exists_of_bind_eq_ok h
  obtain ⟨pair, -, h⟩ := exists_of_bind_eq_ok h
  obtain ⟨s, hs, h⟩ := exists_of_bind_eq_ok h
  cases h
  exact ⟨lift_eq_ok_iff.mp hs, rfl⟩

/-- A join with a suffix puts whole rows side by side. -/
theorem schema_of_pairing (hs : op.suffix? = some suffix) (h : op.pairing left right = .ok p) :
    Join.schema left right suffix = .ok p.schema ∧ p.added = id := by
  cases op with
  | join l r s => cases hs; exact schema_of_equiPairing h
  | indexJoin l r s => cases hs; exact schema_of_equiPairing h
  | thetaJoin condition s => cases hs; exact schema_of_thetaPairing h
  | hashJoin l r s => cases h
  | _ => cases hs

/-- The attributes of a join begin with the left-hand ones. -/
theorem exists_attributes_of_pairing (h : op.pairing left right = .ok p) :
    ∃ more, p.schema.attributes = left.attributes ++ more := by
  cases op with
  | join l r suffix => exact ⟨_, Schema.attributes_of_build (schema_of_equiPairing h).1⟩
  | indexJoin l r suffix => exact ⟨_, Schema.attributes_of_build (schema_of_equiPairing h).1⟩
  | thetaJoin condition suffix => exact ⟨_, Schema.attributes_of_build (schema_of_thetaPairing h).1⟩
  | naturalJoin =>
    obtain ⟨lay, hy, h⟩ := exists_of_bind_eq_ok h
    cases h
    exact ⟨_, (Join.layout_eq_ok (lift_eq_ok_iff.mp hy)).2.2⟩
  | _ => cases h

end Operator

/-! ## Selections -/

namespace Table

variable {t u : Table}

/-- The rows that a condition on a left-hand column keeps of a join. -/
theorem rows_filter_left {p : Join.Pairing} {b : BoundCondition} (ht : t.WellFormed) (hb : b.column < t.schema.arity)
    (rights : List Tuple) :
    (p.rows t.tuples rights).filter b.satisfied = p.rows (t.tuples.filter b.satisfied) rights := by
  apply Join.filter_nested_left
  intro l hl r _
  apply BoundCondition.satisfied_append_left
  rwa [length_of_conforms ht.conforms l hl]

theorem rows_filter_right {p : Join.Pairing} (ha : p.added = id) (ht : t.WellFormed) (b : BoundCondition)
    (rights : List Tuple) : (p.rows t.tuples rights).filter (b.shift t.schema.arity).satisfied
      = p.rows t.tuples (rights.filter b.satisfied) := by
  apply Join.filter_nested_right
  intro l hl r _
  rw [ha, ← length_of_conforms ht.conforms l hl]
  exact BoundCondition.satisfied_append_right b l r

section Orders

variable (ht : t.Reachable) (hu : u.Reachable) {op : Operator} (hj : op.isJoin = true) {text : String}
  {c : Condition} (hc : Condition.parse text = .ok c) {session : Session} {w : Table × Session}
include ht hu hj hc

/-- The tables are joined, and the result is filtered. -/
theorem filtered_join_eq_ok_iff :
    (op.eval [t, u] session >>= fun j => (Operator.filter text).eval [j.1] j.2) = .ok w
      ↔ ∃ p b, op.pairing t.schema u.schema = .ok p ∧ c.bindLiteral p.schema = .ok b
        ∧ (session.fresh t.name).2.derive (session.derive t p.schema (p.rows t.tuples u.tuples)).1 p.schema
          ((p.rows t.tuples u.tuples).filter b.satisfied) = w := by
  apply bind_eq_ok_iff_exists fun _ => Operator.eval_join_eq_ok_iff ht.wellFormed hu.wellFormed hj
  intro p joined
  have both : ∀ input ∈ [t, u], input.Reachable := by simp [ht, hu]
  exact Operator.eval_filter_eq_ok_iff (Operator.reachable_of_eval both joined).wellFormed hc

/-- The left table is filtered, and the result is joined. -/
theorem join_filtered_left_eq_ok_iff :
    ((Operator.filter text).eval [t] session >>= fun f => op.eval [f.1, u] f.2) = .ok w
      ↔ ∃ b p, c.bindLiteral t.schema = .ok b ∧ op.pairing t.schema u.schema = .ok p
        ∧ (session.fresh t.name).2.derive (session.derive t t.schema (t.tuples.filter b.satisfied)).1 p.schema
          (p.rows (t.tuples.filter b.satisfied) u.tuples) = w := by
  apply bind_eq_ok_iff_exists fun _ => Operator.eval_filter_eq_ok_iff ht.wellFormed hc
  intro b filtered
  have alone : ∀ input ∈ [t], input.Reachable := by simp [ht]
  exact Operator.eval_join_eq_ok_iff (Operator.reachable_of_eval alone filtered).wellFormed hu.wellFormed hj

/-- The right table is filtered, and the left one is joined to the result. -/
theorem join_filtered_right_eq_ok_iff :
    ((Operator.filter text).eval [u] session >>= fun f => op.eval [t, f.1] f.2) = .ok w
      ↔ ∃ b p, c.bindLiteral u.schema = .ok b ∧ op.pairing t.schema u.schema = .ok p
        ∧ (session.fresh u.name).2.derive t p.schema (p.rows t.tuples (u.tuples.filter b.satisfied)) = w := by
  apply bind_eq_ok_iff_exists fun _ => Operator.eval_filter_eq_ok_iff hu.wellFormed hc
  intro b filtered
  have alone : ∀ input ∈ [u], input.Reachable := by simp [hu]
  exact Operator.eval_join_eq_ok_iff ht.wellFormed (Operator.reachable_of_eval alone filtered).wellFormed hj

end Orders

/-- A selection on a left-hand attribute commutes with every join: made after the join or before it, the tables are
refused or give the same columns, the same rows in the same order, and the same index. -/
theorem filter_join_left (ht : t.Reachable) (hu : u.Reachable) {op : Operator} (hj : op.isJoin = true)
    {text : String} {c : Condition} (hc : Condition.parse text = .ok c) (hs : c.subject ∈ t.schema.names)
    (session session' : Session) :
    let late := op.eval [t, u] session >>= fun j => (Operator.filter text).eval [j.1] j.2
    let early := (Operator.filter text).eval [t] session' >>= fun f => op.eval [f.1, u] f.2
    ((∃ w, late = .ok w) ↔ ∃ w, early = .ok w)
      ∧ ∀ w w', late = .ok w → early = .ok w' → w.1.SameContent w'.1 := by
  intro late early
  have same : ∀ p, op.pairing t.schema u.schema = .ok p → c.bindLiteral p.schema = c.bindLiteral t.schema := by
    intro p hp
    obtain ⟨more, hm⟩ := Operator.exists_attributes_of_pairing hp
    exact Condition.bindLiteral_append hm hs
  constructor
  · constructor
    · intro ⟨w, h⟩
      obtain ⟨p, b, hp, hb, -⟩ := (filtered_join_eq_ok_iff ht hu hj hc).mp h
      rw [same p hp] at hb
      exact ⟨_, (join_filtered_left_eq_ok_iff ht hu hj hc).mpr ⟨b, p, hb, hp, rfl⟩⟩
    · intro ⟨w, h⟩
      obtain ⟨b, p, hb, hp, -⟩ := (join_filtered_left_eq_ok_iff ht hu hj hc).mp h
      rw [← same p hp] at hb
      exact ⟨_, (filtered_join_eq_ok_iff ht hu hj hc).mpr ⟨p, b, hp, hb, rfl⟩⟩
  · intro w w' h h'
    obtain ⟨p, b, hp, hb, hw⟩ := (filtered_join_eq_ok_iff ht hu hj hc).mp h
    obtain ⟨b', p', hb', hp', hw'⟩ := (join_filtered_left_eq_ok_iff ht hu hj hc).mp h'
    rw [same p hp] at hb
    -- Both orders found the same pairing and bound the condition to the same column.
    obtain rfl : p = p' := Except.ok.inj (hp.symm.trans hp')
    obtain rfl : b = b' := Except.ok.inj (hb.symm.trans hb')
    rw [← hw, ← hw']
    apply sameContent_ofTuples _ _ rfl
    · exact (indexKind_ofTuples ..).trans (indexKind_ofTuples ..).symm
    · exact rows_filter_left ht.wellFormed (Condition.column_lt hb) u.tuples

/-- One of two rows stays, whose site is spelled in quotes. -/
theorem filter_join_left_levels :
    let session : Session := ⟨"2", 0⟩
    let text := "site == ''"
    let late := Operator.naturalJoin.eval [levels, sites] session >>= fun j => (Operator.filter text).eval [j.1] j.2
    let early := (Operator.filter text).eval [levels] session >>= fun f => Operator.naturalJoin.eval [f.1, sites] f.2
    levels.Reachable ∧ sites.Reachable ∧ Operator.naturalJoin.isJoin = true
      ∧ Condition.parse text = .ok ⟨"site", .eq, "''"⟩ ∧ "site" ∈ levels.schema.names
      ∧ late.toOption.map (fun w => w.1.size) = some 2
      ∧ ((∃ w, late = .ok w) ↔ ∃ w, early = .ok w)
      ∧ ∀ w w', late = .ok w → early = .ok w' → w.1.SameContent w'.1 :=
  have hs : sites.Reachable := .ofTuples "sites" .hash (by decide)
  have hc : Condition.parse "site == ''" = .ok ⟨"site", .eq, "''"⟩ := by decide +kernel
  have hn : "site" ∈ levels.schema.names := by decide
  ⟨reachable_levels, hs, rfl, hc, hn, by decide +kernel,
    filter_join_left reachable_levels hs rfl hc hn ⟨"2", 0⟩ ⟨"2", 0⟩⟩

/-- A selection on a right-hand attribute commutes with a join that keeps the name of the attribute. -/
theorem filter_join_right (ht : t.Reachable) (hu : u.Reachable) {op : Operator} (hj : op.isJoin = true)
    {suffix : String} (hx : op.suffix? = some suffix) {session : Session} {j : Table × Session}
    (hok : op.eval [t, u] session = .ok j) {text : String} {c : Condition} (hc : Condition.parse text = .ok c)
    {b : BoundCondition} (hb : c.bindLiteral u.schema = .ok b) (hs : c.subject ∉ t.schema.names)
    (hk : c.subject ∉ Join.namesBefore t.schema u.schema suffix c.subject) (session' : Session) :
    ∃ late early, (Operator.filter text).eval [j.1] j.2 = .ok late
      ∧ ((Operator.filter text).eval [u] session' >>= fun f => op.eval [t, f.1] f.2) = .ok early
      ∧ late.1.SameContent early.1 := by
  obtain ⟨p, hp, hj'⟩ := (Operator.eval_join_eq_ok_iff ht.wellFormed hu.wellFormed hj).mp hok
  obtain ⟨hp', ha⟩ := Operator.schema_of_pairing hx hp
  obtain ⟨d, hd, hv, ho⟩ := Condition.bindLiteral_eq_ok_iff.mp hb
  -- In the join the condition is bound to the column of the same attribute.
  have bound : c.bindLiteral p.schema = .ok (b.shift t.schema.arity) :=
    Condition.bindLiteral_eq_ok_iff.mpr ⟨d, Join.getElem?_schema hp' hd hs hk, hv, ho⟩
  have late : (op.eval [t, u] session >>= fun j => (Operator.filter text).eval [j.1] j.2) = .ok _ :=
    (filtered_join_eq_ok_iff ht hu hj hc).mpr ⟨p, _, hp, bound, rfl⟩
  have early : ((Operator.filter text).eval [u] session' >>= fun f => op.eval [t, f.1] f.2) = .ok _ :=
    (join_filtered_right_eq_ok_iff ht hu hj hc).mpr ⟨b, p, hb, hp, rfl⟩
  rw [hok] at late
  refine ⟨_, _, late, early, ?_⟩
  apply sameContent_ofTuples _ _ rfl
  · exact indexKind_ofTuples ..
  · exact rows_filter_right ha ht.wellFormed b u.tuples

/-! ### Ferries between sites

A ferry goes from a site to another one. -/

/-- Which site a ferry goes to. -/
def ferries : Table :=
  ofTuples "ferries" ⟨[⟨"site", .string⟩, ⟨"site2", .string⟩], ["site"],
      ⟨by decide, by decide, by decide, by decide, by decide⟩⟩ .hash
    [[.string "Åre \"N\"", .string "Duved"], [.string "", .string "Åre \"N\""]]

theorem reachable_ferries : ferries.Reachable := .ofTuples "ferries" .hash (by decide)

/-- With another suffix the site that a ferry leaves takes no name of a later attribute. -/
theorem filter_join_right_ferries :
    let session : Session := ⟨"2", 0⟩
    let op := Operator.indexJoin ["site"] ["site"] "_from"
    let text := "site2 == Duved"
    levels.Reachable ∧ ferries.Reachable ∧ (op.eval [levels, ferries] session).toOption.map (fun j => j.1.size) = some 3
      ∧ Condition.parse text = .ok ⟨"site2", .eq, "Duved"⟩
      ∧ Condition.bindLiteral ⟨"site2", .eq, "Duved"⟩ ferries.schema = .ok ⟨1, .eq, .string "Duved"⟩
      ∧ "site2" ∉ levels.schema.names ∧ "site2" ∉ Join.namesBefore levels.schema ferries.schema "_from" "site2"
      ∧ ∃ j late early, op.eval [levels, ferries] session = .ok j ∧ (Operator.filter text).eval [j.1] j.2 = .ok late
        ∧ ((Operator.filter text).eval [ferries] session >>= fun f => op.eval [levels, f.1] f.2) = .ok early
        ∧ late.1.SameContent early.1 := by
  intro session op text
  have hc : Condition.parse text = .ok ⟨"site2", .eq, "Duved"⟩ := by decide +kernel
  have hb : Condition.bindLiteral ⟨"site2", .eq, "Duved"⟩ ferries.schema = .ok ⟨1, .eq, .string "Duved"⟩ := by
    decide +kernel
  have hs : "site2" ∉ levels.schema.names := by decide
  have hk : "site2" ∉ Join.namesBefore levels.schema ferries.schema "_from" "site2" := by decide +kernel
  have size : (op.eval [levels, ferries] session).toOption.map (fun j => j.1.size) = some 3 := by decide +kernel
  refine ⟨reachable_levels, reachable_ferries, size, hc, hb, hs, hk, ?_⟩
  cases hj : op.eval [levels, ferries] session with
  | error rejection =>
    rw [hj] at size
    cases size
  | ok j =>
    obtain ⟨late, early, hl, he, same⟩ :=
      filter_join_right reachable_levels reachable_ferries rfl rfl hj hc hb hs hk session
    exact ⟨j, late, early, rfl, hl, he, same⟩

/-- The site that a ferry leaves is renamed to the name of the site it goes to, which is renamed in its turn. So a
selection on that name reads another column after the join than before it. -/
theorem renamed_attribute_hides_name :
    let session : Session := ⟨"2", 0⟩
    let op := Operator.join ["site"] ["site"] "2"
    let text := "site2 == Duved"
    let late := op.eval [levels, ferries] session >>= fun j => (Operator.filter text).eval [j.1] j.2
    let early := (Operator.filter text).eval [ferries] session >>= fun f => op.eval [levels, f.1] f.2
    levels.Reachable ∧ ferries.Reachable ∧ "site2" ∈ ferries.schema.names ∧ "site2" ∉ levels.schema.names
      ∧ late.toOption.map (fun w => w.1.tuples) = some []
      ∧ early.toOption.map (fun w => w.1.tuples.length) = some 2 :=
  ⟨reachable_levels, reachable_ferries, by decide, by decide, by decide +kernel, by decide +kernel⟩

end Table

end Relata
