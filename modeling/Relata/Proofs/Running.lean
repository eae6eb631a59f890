import Relata.Proofs.Reachable
/-!
# Running operators

Planning and running agree on reachable tables: a run has a result exactly when the plan has one, with the
planned schema (`Made`), and otherwise the rejection of the plan; no run reads a column that a row lacks.
A join through an index runs as the nested loop does, since the two have the same result
(`result_indexJoin`).
-/

namespace Relata.Operator

/-- What a run makes of a plan: a table over the planned schema, all of whose rows fit it and have every
key column, named after the first input with the number of the session, which goes on by one. -/
structure Made (plan : Plan) (base : Table) (session : Session) (t : Table) (session' : Session) :
    Prop where
  schema_eq : t.schema = plan.schema
  conforms : ∀ row ∈ t.tuples, plan.schema.check row = .ok ()
  keys : ∀ row ∈ t.tuples, row.project? plan.schema.keyColumns = some (plan.schema.keyOf row)
  kind_eq : t.indexKind = base.indexKind
  name_eq : t.name = base.name ++ toString session.derived.toNat
  derived_eq : session'.derived.toNat = session.derived.toNat + 1
  suffix_eq : session'.suffix = session.suffix

/-! ## Columns that are there -/

/-- Planning looks at no row, so it never misses a column of one. -/
theorem plan_ne_undefined (op : Operator) (inputs : List Schema) : op.plan inputs ≠ .error .undefined := by
  have bind {α β : Type} {x : Except Rejection α} {f : α → Except Rejection β}
      (hx : x ≠ .error .undefined) (hf : ∀ a, f a ≠ .error .undefined) : x >>= f ≠ .error .undefined := by
    cases x with
    | error e => exact fun h => hx (congrArg _ (Except.error.inj h))
    | ok a => exact hf a
  have lift {α : Type} (x : Except Fault α) : Rejection.lift x ≠ .error .undefined := by
    cases x <;> exact fun h => (nomatch h)
  have one (op : Operator) : op.one inputs ≠ .error .undefined := by
    unfold Operator.one
    split <;> exact fun h => (nomatch h)
  have two (op : Operator) : op.two inputs ≠ .error .undefined := by
    unfold Operator.two
    split <;> exact fun h => (nomatch h)
  have set (op : Operator) : op.planSet inputs ≠ .error .undefined := by
    refine bind (two op) fun pair => ?_
    show (if pair.1.unionCompatible pair.2 then _ else _) ≠ _
    split <;> exact fun h => (nomatch h)
  have equi (op : Operator) (l r : List String) (suffix : String) (cost : Cost) :
      op.planJoin inputs l r suffix cost ≠ .error .undefined :=
    bind (two op) fun _ => bind (lift _) fun _ => bind (lift _) fun _ h => (nomatch h)
  cases op with
  | project attributes => exact bind (one _) fun _ => bind (lift _) fun _ h => (nomatch h)
  | select predicate => exact bind (one _) fun _ h => (nomatch h)
  | filter condition =>
    exact bind (one _) fun _ => bind (lift _) fun _ => bind (lift _) fun _ h => (nomatch h)
  | selectKey key => exact bind (one _) fun _ h => (nomatch h)
  | union => exact set _
  | minus => exact set _
  | intersect => exact set _
  | join l r suffix => exact equi _ l r suffix _
  | indexJoin l r suffix => exact equi _ l r suffix _
  | hashJoin l r suffix => exact equi _ l r suffix _
  | thetaJoin condition suffix =>
    exact bind (two _) fun _ => bind (lift _) fun _ => bind (lift _) fun _ =>
      bind (lift _) fun _ h => (nomatch h)
  | naturalJoin => exact bind (two _) fun _ => bind (lift _) fun _ h => (nomatch h)

/-! ## Runs -/

theorem run_of_result_eq_error {op : Operator} {inputs : List Table} {rejection : Rejection}
    (h : op.result inputs = .error rejection) (session : Session) :
    op.run inputs session = (.error rejection, session) := by
  rw [run, h]

theorem run_of_result_eq_ok {op : Operator} {inputs : List Table} {result : Result}
    (h : op.result inputs = .ok result) (session : Session) :
    op.run inputs session = (.ok (session.derive result.base result.schema result.tuples).1,
      (session.derive result.base result.schema result.tuples).2) := by
  rw [run, h]

/-- A join by hashing is planned, and then it is refused. -/
theorem result_hashJoin (l r : List String) (suffix : String) (inputs : List Table) :
    (hashJoin l r suffix).result inputs
      = (hashJoin l r suffix).plan (inputs.map Table.schema) >>= fun _ => .error (.unsupported "hash_join") := by
  match inputs with
  | [] => rfl
  | [t] => rfl
  | [t, u] => rfl
  | t :: u :: v :: rest =>
    show Except.error (Rejection.inputs "hash_join" 2 (t :: u :: v :: rest).length)
      = .error (.inputs "hash_join" 2 ((t :: u :: v :: rest).map Table.schema).length)
    rw [List.length_map]

/-- The table and the session that a result over fitting rows leaves. -/
theorem made_derive {plan : Plan} {tuples : List Tuple} (fits : ∀ row ∈ tuples, plan.schema.Fits row)
    (base : Table) {session : Session} (hc : session.derived.toNat < UInt64.size - 1) :
    Made plan base session (session.derive base plan.schema tuples).1
      (session.derive base plan.schema tuples).2 where
  schema_eq := rfl
  conforms row hr := Schema.check_eq_ok_iff.mpr (fits row hr)
  keys row hr := (fits row hr).project?_keyColumns
  kind_eq := Table.indexKind_ofTuples ..
  name_eq := rfl
  derived_eq := by
    show (session.derived + 1).toNat = _
    rw [UInt64.toNat_add]
    have next : session.derived.toNat + 1 < UInt64.size := by omega
    exact Nat.mod_eq_of_lt next
  suffix_eq := rfl

/-- On reachable tables, an operator runs as it was planned. A join by hashing is the only one that is
refused after planning. -/
theorem run_keeps_to_plan {op : Operator} {inputs : List Table} (hr : ∀ t ∈ inputs, t.Reachable)
    (hd : op.DefinedOn inputs) {session : Session} (hc : session.derived.toNat < UInt64.size - 1) :
    (op.run inputs session).1 ≠ .error .undefined
      ∧ match op.plan (inputs.map Table.schema) with
        | .error rejection => op.run inputs session = (.error rejection, session)
        | .ok plan =>
          if op.isEvaluable then
            ∃ base rest t session', inputs = base :: rest ∧ op.run inputs session = (.ok t, session')
              ∧ Made plan base session t session'
          else op.run inputs session = (.error (.unsupported "hash_join"), session) := by
  have ne := op.plan_ne_undefined (inputs.map Table.schema)
  -- A join by hashing has a lemma of its own; all other operators keep to their plans.
  cases he : op.isEvaluable with
  | true =>
    have planned := planned_result (fun t ht => (hr t ht).wellFormed) he hd
    generalize op.plan (inputs.map Table.schema) = plan at ne planned
    generalize hres : op.result inputs = result at planned
    cases planned with
    | refused rejection =>
      rw [run_of_result_eq_error hres]
      exact ⟨fun h => ne (congrArg _ (Except.error.inj h)), rfl⟩
    | made inputs_eq fits =>
      rw [run_of_result_eq_ok hres]
      refine ⟨fun h => (nomatch h), ?_⟩
      exact ⟨_, _, _, _, inputs_eq, rfl, made_derive fits _ hc⟩
  | false =>
    cases op with
    | hashJoin l r suffix =>
      have hres := result_hashJoin l r suffix inputs
      cases hp : (hashJoin l r suffix).plan (inputs.map Table.schema) with
      | error rejection =>
        rw [hp] at hres ne
        rw [run_of_result_eq_error hres]
        exact ⟨fun h => ne (congrArg _ (Except.error.inj h)), rfl⟩
      | ok plan =>
        rw [hp] at hres
        rw [run_of_result_eq_error hres]
        exact ⟨fun h => (nomatch h), rfl⟩
    | _ => cases he

/-- A selection whose predicate looks at a column that every row of the levels has. -/
theorem run_keeps_to_plan_levels :
    let op := select fun row => (row[1]?).map fun v => v == .double 0x8000000000000000
    let session : Session := ⟨"2", 41⟩
    (∀ t ∈ [Table.levels], t.Reachable) ∧ op.DefinedOn [Table.levels]
      ∧ session.derived.toNat < UInt64.size - 1 ∧ (op.run [Table.levels] session).1 ≠ .error .undefined
      ∧ ∃ base rest t session', [Table.levels] = base :: rest
        ∧ op.run [Table.levels] session = (.ok t, session')
        ∧ Made ⟨Table.levelsSchema, .linear⟩ base session t session' := by
  intro op session
  have hr : ∀ t ∈ [Table.levels], t.Reachable := fun t ht =>
    List.mem_singleton.mp ht ▸ Table.reachable_levels
  have hd : op.DefinedOn [Table.levels] := by
    intro t ht row hm
    rw [List.mem_singleton.mp ht] at hm
    have two : ∀ row ∈ Table.levelsRows, (row[1]?).isSome = true := by decide
    show ((row[1]?).map _).isSome = true
    rw [Option.isSome_map]
    exact two row hm
  have hc : session.derived.toNat < UInt64.size - 1 := by decide
  exact ⟨hr, hd, hc, run_keeps_to_plan hr hd hc⟩

/-! ## Joins through an index -/

/-- The result of a join on paired attributes, whatever way its rows are found: first the columns are
looked up, then the schema is made, and then the rows. -/
def joined (rows? : List Nat → List Nat → List Tuple → List Tuple → Option (List Tuple)) (t u : Table)
    (left right : List String) (suffix : String) : Except Rejection Result := do
  let (l, r) ← Rejection.lift (Join.columns t.schema u.schema left right)
  let s ← Rejection.lift (Join.schema t.schema u.schema suffix)
  return ⟨t, s, ← Rejection.defined (rows? l r t.tuples u.tuples)⟩

/-- Planning such a join first looks the columns up twice, and they are the same. -/
theorem joined_eq (op : Operator) (t u : Table) (left right : List String) (suffix : String) (cost : Cost)
    (rows? : List Nat → List Nat → List Tuple → List Tuple → Option (List Tuple)) :
    (do
      let (a, b) ← op.two [t, u]
      let plan ← op.planJoin [a.schema, b.schema] left right suffix cost
      let (l, r) ← Rejection.lift (Join.columns a.schema b.schema left right)
      return (⟨a, plan.schema, ← Rejection.defined (rows? l r a.tuples b.tuples)⟩ : Result))
    = joined rows? t u left right suffix := by
  unfold joined
  show ((Rejection.lift (Join.columns t.schema u.schema left right) >>= fun _ =>
      Rejection.lift (Join.schema t.schema u.schema suffix) >>= fun s => .ok (Plan.mk s cost)) >>= fun plan =>
      Rejection.lift (Join.columns t.schema u.schema left right) >>= fun pair =>
      Rejection.defined (rows? pair.1 pair.2 t.tuples u.tuples) >>= fun rows =>
      .ok (Result.mk t plan.schema rows)) = _
  cases Join.columns t.schema u.schema left right with
  | error fault => rfl
  | ok pair =>
    cases Join.schema t.schema u.schema suffix with
    | error fault => rfl
    | ok s => rfl

/-- On well-formed tables a join through an index and a nested loop have the same result. -/
theorem result_indexJoin {t u : Table} (ht : t.WellFormed) (hu : u.WellFormed) (left right : List String)
    (suffix : String) :
    (indexJoin left right suffix).result [t, u] = (join left right suffix).result [t, u] := by
  have rows : ∀ pair, Join.columns t.schema u.schema left right = .ok pair →
      Join.byIndex? pair.1 pair.2 t.tuples u.tuples = Join.byScan? pair.1 pair.2 t.tuples u.tuples := by
    intro ⟨l, r⟩ hc
    obtain ⟨hn, hl, hr⟩ := Join.columns_eq_ok hc
    have lefts := fits_of_wellFormed ht
    have rights := fits_of_wellFormed hu
    rw [Join.byIndex?_eq_some lefts rights hn hl hr,
      Join.byScan?_eq_some lefts rights (Join.lt_of_mem_zip hl hr)]
  calc (indexJoin left right suffix).result [t, u]
      = joined Join.byIndex? t u left right suffix := joined_eq _ t u left right suffix .sum Join.byIndex?
    _ = joined Join.byScan? t u left right suffix := by
        unfold joined
        cases hc : Join.columns t.schema u.schema left right with
        | error fault => rfl
        | ok pair =>
          show (Rejection.lift (Join.schema t.schema u.schema suffix) >>= fun s =>
            Rejection.defined (Join.byIndex? pair.1 pair.2 t.tuples u.tuples) >>= fun rows =>
            .ok (Result.mk t s rows)) = _
          rw [rows pair hc]
          rfl
    _ = (join left right suffix).result [t, u] :=
        (joined_eq _ t u left right suffix .product Join.byScan?).symm

/-- On reachable tables a join through an index runs as the nested loop does. -/
theorem indexJoin_run_eq_join_run {t u : Table} (ht : t.Reachable) (hu : u.Reachable)
    (left right : List String) (suffix : String) (session : Session) :
    (indexJoin left right suffix).run [t, u] session = (join left right suffix).run [t, u] session := by
  rw [run, run, result_indexJoin ht.wellFormed hu.wellFormed]

theorem indexJoin_run_eq_join_run_levels :
    let session : Session := ⟨"2", 0⟩
    let levels := Table.levels
    levels.Reachable
      ∧ ((join ["site"] ["site"] "2").run [levels, levels] session).1.toOption.map Table.size = some 5
      ∧ (indexJoin ["site"] ["site"] "2").run [levels, levels] session
        = (join ["site"] ["site"] "2").run [levels, levels] session :=
  have h := Table.reachable_levels
  ⟨h, by decide +kernel, indexJoin_run_eq_join_run h h ["site"] ["site"] "2" _⟩

end Relata.Operator
