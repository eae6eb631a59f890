import Relata.Proofs.NaturalJoins
/-!
# Joins as pairings

A join looks at the schemas of its inputs alone to learn which pairs of rows it takes, and what of a right row it
puts behind the left one (`Join.Pairing`). On well-formed tables its result is the nested loop over those pairs
(`result_join`), and a filter keeps the rows that satisfy its bound condition (`result_filter`). So what an
evaluation leaves is known from the pairing or the bound condition (`eval_join_eq_ok_iff`,
`eval_filter_eq_ok_iff`).
-/

namespace Relata

/-! ## Pairings -/

/-- Which pairs of rows a join takes, and what it adds of a right row to a left one. -/
structure Join.Pairing where
  schema : Schema
  related : Tuple → Tuple → Bool
  added : Tuple → Tuple

/-- The rows of a join: for each left row in order, the right rows that are related to it in order. -/
def Join.Pairing.rows (p : Join.Pairing) (left right : List Tuple) : List Tuple :=
  Join.nested p.related (fun l r => l ++ p.added r) left right

namespace Operator

/-- Whether an operator is a join that can be evaluated. -/
def isJoin : Operator → Bool
  | join .. => true
  | indexJoin .. => true
  | thetaJoin .. => true
  | naturalJoin => true
  | _ => false

/-- The pairing of a join on paired attributes, whatever way its rows are found. -/
def equiPairing (l r : List String) (suffix : String) (left right : Schema) : Except Rejection Join.Pairing := do
  let (l, r) ← Rejection.lift (Join.columns left right l r)
  let s ← Rejection.lift (Join.schema left right suffix)
  return ⟨s, Join.agree (l.zip r), id⟩

def thetaPairing (condition suffix : String) (left right : Schema) : Except Rejection Join.Pairing := do
  let c ← Rejection.lift (Condition.parse condition)
  let (l, r) ← Rejection.lift (c.bindColumns left right)
  let s ← Rejection.lift (Join.schema left right suffix)
  return ⟨s, Join.compared c.comparison.holds l r, id⟩

def naturalPairing (left right : Schema) : Except Rejection Join.Pairing := do
  let lay ← Rejection.lift (Join.layout left right)
  return ⟨lay.schema, Join.agree lay.common, fun r => r.project lay.kept⟩

/-- How a join pairs the rows of tables with the given schemas. Only a join that can be evaluated does. -/
def pairing (op : Operator) (left right : Schema) : Except Rejection Join.Pairing :=
  match op with
  | join l r suffix => equiPairing l r suffix left right
  | indexJoin l r suffix => equiPairing l r suffix left right
  | thetaJoin condition suffix => thetaPairing condition suffix left right
  | naturalJoin => naturalPairing left right
  | op => .error (.unsupported op.name)

/-! ## Results -/

/-- What a pairing makes of two tables. -/
def paired (t u : Table) (p : Join.Pairing) : Result := ⟨t, p.schema, p.rows t.tuples u.tuples⟩

section Results

variable {t u : Table} (ht : t.WellFormed) (hu : u.WellFormed)
include ht hu

theorem joined_eq_map_pairing (l r : List String) (suffix : String) :
    joined Join.byScan? t u l r suffix = (equiPairing l r suffix t.schema u.schema).map (paired t u) := by
  unfold joined equiPairing
  cases hc : Join.columns t.schema u.schema l r with
  | error fault => rfl
  | ok pair =>
    obtain ⟨-, hl, hr⟩ := Join.columns_eq_ok hc
    have rows := Join.byScan?_eq_some (fits_of_wellFormed ht) (fits_of_wellFormed hu) (Join.lt_of_mem_zip hl hr)
    cases Join.schema t.schema u.schema suffix with
    | error fault => rfl
    | ok s =>
      show (Rejection.defined (Join.byScan? pair.1 pair.2 t.tuples u.tuples) >>= _) = _
      rw [rows]
      rfl

/-- Planning a join on a condition reads the condition and looks its columns up; evaluating does so again. -/
theorem result_thetaJoin (condition suffix : String) : (thetaJoin condition suffix).result [t, u]
    = (thetaPairing condition suffix t.schema u.schema).map (paired t u) := by
  show ((Rejection.lift (Condition.parse condition) >>= fun c =>
      Rejection.lift (c.bindColumns t.schema u.schema) >>= fun _ =>
      Rejection.lift (Join.schema t.schema u.schema suffix) >>= fun s => .ok (Plan.mk s .product)) >>= fun plan =>
      Rejection.lift (Condition.parse condition) >>= fun c =>
      Rejection.lift (c.bindColumns t.schema u.schema) >>= fun pair =>
      Rejection.defined (Join.theta? c.comparison.holds pair.1 pair.2 t.tuples u.tuples) >>= fun rows =>
      .ok (Result.mk t plan.schema rows)) = _
  unfold thetaPairing
  cases Condition.parse condition with
  | error fault => rfl
  | ok c =>
    show ((Rejection.lift (c.bindColumns t.schema u.schema) >>= fun _ => _) >>= _)
      = (Rejection.lift (c.bindColumns t.schema u.schema) >>= fun _ => _).map _
    cases hb : c.bindColumns t.schema u.schema with
    | error fault => rfl
    | ok pair =>
      obtain ⟨hl, hr⟩ := lt_of_bindColumns hb
      have rows := Join.theta?_eq_some (fits_of_wellFormed ht) (fits_of_wellFormed hu) c.comparison.holds hl hr
      cases Join.schema t.schema u.schema suffix with
      | error fault => rfl
      | ok s =>
        show (Rejection.lift (c.bindColumns t.schema u.schema) >>= fun pair =>
          Rejection.defined (Join.theta? c.comparison.holds pair.1 pair.2 t.tuples u.tuples) >>= _) = _
        rw [hb]
        show (Rejection.defined (Join.theta? c.comparison.holds pair.1 pair.2 t.tuples u.tuples) >>= _) = _
        rw [rows]
        rfl

theorem result_naturalJoin :
    naturalJoin.result [t, u] = (naturalPairing t.schema u.schema).map (paired t u) := by
  show (Rejection.lift (Join.layout t.schema u.schema) >>= fun lay =>
    Rejection.defined (Join.natural? lay.common lay.kept t.tuples u.tuples) >>= fun rows =>
    .ok (Result.mk t lay.schema rows)) = _
  unfold naturalPairing
  cases hy : Join.layout t.schema u.schema with
  | error fault => rfl
  | ok lay =>
    obtain ⟨hp, hk, -⟩ := Join.layout_eq_ok hy
    have rows := Join.natural?_eq_some (fits_of_wellFormed ht) (fits_of_wellFormed hu) hp hk
    show (Rejection.defined (Join.natural? lay.common lay.kept t.tuples u.tuples) >>= _) = _
    rw [rows]
    rfl

/-- On well-formed tables a join gives the rows that its pairing says. -/
theorem result_join {op : Operator} (hj : op.isJoin = true) :
    op.result [t, u] = (op.pairing t.schema u.schema).map (paired t u) := by
  cases op with
  | join l r suffix =>
    rw [pairing, ← joined_eq_map_pairing ht hu]
    exact joined_eq _ t u l r suffix .product Join.byScan?
  | indexJoin l r suffix =>
    rw [result_indexJoin ht hu, pairing, ← joined_eq_map_pairing ht hu]
    exact joined_eq _ t u l r suffix .product Join.byScan?
  | thetaJoin condition suffix => exact result_thetaJoin ht hu condition suffix
  | naturalJoin => exact result_naturalJoin ht hu
  | _ => cases hj

omit hu in
/-- On a well-formed table a filter gives the rows that satisfy its condition, bound to the schema. -/
theorem result_filter {text : String} {c : Condition} (hc : Condition.parse text = .ok c) :
    (filter text).result [t]
      = (Rejection.lift (c.bindLiteral t.schema)).map fun b => ⟨t, t.schema, t.tuples.filter b.satisfied⟩ := by
  show (Rejection.lift (Condition.parse text) >>= fun c =>
    Rejection.lift (c.bindLiteral t.schema) >>= fun b =>
    Rejection.defined (t.tuples.filterM b.matches?) >>= fun rows => .ok (Result.mk t t.schema rows)) = _
  rw [hc]
  show (Rejection.lift (c.bindLiteral t.schema) >>= _) = _
  cases hb : c.bindLiteral t.schema with
  | error fault => rfl
  | ok b =>
    show (Rejection.defined (t.tuples.filterM b.matches?) >>= _) = _
    rw [filterM_matches? (fits_of_wellFormed ht) hb]
    rfl

end Results

/-! ## Evaluations -/

theorem eval_eq (op : Operator) (inputs : List Table) (session : Session) :
    op.eval inputs session = (op.result inputs).map fun r => session.derive r.base r.schema r.tuples := by
  rw [eval, run]
  cases op.result inputs <;> rfl

theorem reachable_of_eval {op : Operator} {inputs : List Table} (h : ∀ input ∈ inputs, input.Reachable)
    {session : Session} {w : Table × Session} (he : op.eval inputs session = .ok w) : w.1.Reachable := by
  rw [eval] at he
  cases hr : op.run inputs session with
  | mk result next =>
    rw [hr] at he
    cases result with
    | error rejection => cases he
    | ok t =>
      cases he
      exact .run h hr

section Evaluations

variable {t u : Table} (ht : t.WellFormed) {session : Session} {w : Table × Session}
include ht

/-- What a join leaves in a session: a table over the schema of its pairing with the rows that are paired. -/
theorem eval_join_eq_ok_iff (hu : u.WellFormed) {op : Operator} (hj : op.isJoin = true) :
    op.eval [t, u] session = .ok w ↔ ∃ p, op.pairing t.schema u.schema = .ok p
      ∧ session.derive t p.schema (p.rows t.tuples u.tuples) = w := by
  rw [eval_eq, result_join ht hu hj]
  cases op.pairing t.schema u.schema with
  | error rejection => simp [Except.map]
  | ok p => simp [Except.map, paired]

/-- What a filter leaves in a session: a table over the same schema with the rows that satisfy its condition. -/
theorem eval_filter_eq_ok_iff {text : String} {c : Condition} (hc : Condition.parse text = .ok c) :
    (filter text).eval [t] session = .ok w ↔ ∃ b, c.bindLiteral t.schema = .ok b
      ∧ session.derive t t.schema (t.tuples.filter b.satisfied) = w := by
  rw [eval_eq, result_filter ht hc]
  cases c.bindLiteral t.schema with
  | error fault => simp [Except.map, Rejection.lift, Except.mapError]
  | ok b => simp [Except.map, Rejection.lift, Except.mapError]

end Evaluations

end Operator

end Relata
