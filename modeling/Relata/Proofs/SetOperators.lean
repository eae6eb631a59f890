import Relata.Proofs.Pushdown
/-!
# Set operators

A set operator refuses tables whose domains differ, and else combines their rows over the left schema
(`eval_set_eq_ok_iff`), so what a query of set operators and selections gives is known step by step (`Table.Gives`).
The union is associative and keeps the multiplicities of its left side (`union_assoc_and_counts`), a difference and
an intersection share the left rows out (`minus_and_intersect_share`), and a selection can be made of the inputs of a
set operator instead of its result (`selectWhere_set_operators`).
-/

namespace Relata

theorem Schema.unionCompatible_iff {s t : Schema} : s.unionCompatible t = true ↔ s.domains = t.domains := beq_iff_eq

namespace Operator

/-- How a set operator combines the rows of its inputs. Only a set operator does. -/
inductive Combines : Operator → (List Tuple → List Tuple → List Tuple) → Prop
  | union : Combines union unionTuples
  | minus : Combines minus fun left right => left.filter fun row => row ∉ right
  | intersect : Combines intersect fun left right => left.filter fun row => row ∈ right

variable {op : Operator} {combine : List Tuple → List Tuple → List Tuple} (ho : op.Combines combine)
include ho

theorem result_set (t u : Table) : op.result [t, u] = if t.schema.unionCompatible u.schema
    then .ok ⟨t, t.schema, combine t.tuples u.tuples⟩
    else .error (.incompatible op.name t.schema u.schema) := by
  -- All three plan first, and then combine the rows.
  have planned : ∀ op : Operator, (op.planSet [t.schema, u.schema] >>= fun plan =>
      .ok (Result.mk t plan.schema (combine t.tuples u.tuples))) = if t.schema.unionCompatible u.schema
      then .ok ⟨t, t.schema, combine t.tuples u.tuples⟩
      else .error (.incompatible op.name t.schema u.schema) := by
    intro op
    show ((if t.schema.unionCompatible u.schema then Except.ok (Plan.mk t.schema .sum) else _) >>= _) = _
    split <;> rfl
  cases ho with
  | union => exact planned .union
  | minus => exact planned .minus
  | intersect => exact planned .intersect

/-- What a set operator leaves in a session: a table over the left schema with the rows combined. -/
theorem eval_set_eq_ok_iff {t u : Table} {session : Session} {w : Table × Session} :
    op.eval [t, u] session = .ok w ↔ t.schema.domains = u.schema.domains
      ∧ session.derive t t.schema (combine t.tuples u.tuples) = w := by
  rw [eval_eq, result_set ho, ← Schema.unionCompatible_iff]
  cases t.schema.unionCompatible u.schema with
  | true => simp [Except.map]
  | false => simp [Except.map]

end Operator

namespace Table

/-! ## What queries give -/

/-- A query has a result: a table of the given rows, whatever its name is. -/
def Gives (query : Except Rejection (Table × Session)) (schema : Schema) (kind : IndexKind) (rows : List Tuple) :
    Prop :=
  ∃ name session, query = .ok (ofTuples name schema kind rows, session)

/-- Two queries have results that differ at most in their names. -/
def SameResult (query query' : Except Rejection (Table × Session)) : Prop :=
  ∃ w w', query = .ok w ∧ query' = .ok w' ∧ w.1.SameContent w'.1

section Gives

variable {query query' : Except Rejection (Table × Session)} {schema schema' : Schema} {kind kind' : IndexKind}
  {rows rows' : List Tuple}

/-- A query whose result is queried in its turn. -/
theorem Gives.bind {next : Table × Session → Except Rejection (Table × Session)} (h : Gives query schema kind rows)
    (hn : ∀ name session, query = .ok (ofTuples name schema kind rows, session) →
      Gives (next (ofTuples name schema kind rows, session)) schema' kind' rows') :
    Gives (query >>= next) schema' kind' rows' := by
  obtain ⟨name, session, hq⟩ := h
  rw [hq]
  exact hn name session hq

theorem Gives.sameResult (h : Gives query schema kind rows) (h' : Gives query' schema kind rows) :
    SameResult query query' := by
  obtain ⟨name, session, hq⟩ := h
  obtain ⟨name', session', hq'⟩ := h'
  exact ⟨_, _, hq, hq', sameContent_ofTuples name name' rfl rfl rfl⟩

variable {t u : Table} {session : Session} (hk : t.indexKind = kind)
include hk

theorem gives_set (op : Operator) {combine : List Tuple → List Tuple → List Tuple}
    (ho : op.Combines combine) (hd : t.schema.domains = u.schema.domains) :
    Gives (op.eval [t, u] session) t.schema kind (combine t.tuples u.tuples) := by
  subst hk
  exact ⟨_, _, (Operator.eval_set_eq_ok_iff ho).mpr ⟨hd, rfl⟩⟩

theorem gives_union (hd : t.schema.domains = u.schema.domains) :
    Gives (t.union u session) t.schema kind (Operator.unionTuples t.tuples u.tuples) := gives_set hk .union .union hd

theorem gives_minus (hd : t.schema.domains = u.schema.domains) :
    Gives (t.minus u session) t.schema kind (t.tuples.filter fun row => row ∉ u.tuples) := gives_set hk .minus .minus hd

theorem gives_intersect (hd : t.schema.domains = u.schema.domains) :
    Gives (t.intersect u session) t.schema kind (t.tuples.filter fun row => row ∈ u.tuples) :=
  gives_set hk .intersect .intersect hd

theorem gives_selectWhere (ht : t.WellFormed) {text : String} {c : Condition} (hc : Condition.parse text = .ok c)
    {b : BoundCondition} (hb : c.bindLiteral t.schema = .ok b) :
    Gives (t.selectWhere text session) t.schema kind (t.tuples.filter b.satisfied) := by
  subst hk
  exact ⟨_, _, (Operator.eval_filter_eq_ok_iff ht hc).mpr ⟨b, hb, rfl⟩⟩

end Gives

variable {t u v : Table}

/-! ## Unions -/

/-- The first two tables are united, and the result with the third. -/
theorem union_union_eq_ok_iff {session : Session} {w : Table × Session} :
    (t.union u session >>= fun tu => tu.1.union v tu.2) = .ok w
      ↔ (t.schema.domains = u.schema.domains ∧ t.schema.domains = v.schema.domains)
        ∧ (session.fresh t.name).2.derive (session.derive t t.schema (Operator.unionTuples t.tuples u.tuples)).1
          t.schema (Operator.unionTuples (Operator.unionTuples t.tuples u.tuples) v.tuples) = w := by
  rw [bind_eq_ok_iff]
  constructor
  · intro ⟨tu, first, second⟩
    obtain ⟨hu, rfl⟩ := (Operator.eval_set_eq_ok_iff .union).mp first
    obtain ⟨hv, rfl⟩ := (Operator.eval_set_eq_ok_iff .union).mp second
    exact ⟨⟨hu, hv⟩, rfl⟩
  · intro ⟨⟨hu, hv⟩, hw⟩
    exact ⟨_, (Operator.eval_set_eq_ok_iff .union).mpr ⟨hu, rfl⟩, (Operator.eval_set_eq_ok_iff .union).mpr ⟨hv, hw⟩⟩

/-- The last two tables are united, and the first with the result. -/
theorem union_of_union_eq_ok_iff {session : Session} {w : Table × Session} :
    (u.union v session >>= fun uv => t.union uv.1 uv.2) = .ok w
      ↔ (t.schema.domains = u.schema.domains ∧ u.schema.domains = v.schema.domains)
        ∧ (session.fresh u.name).2.derive t t.schema
          (Operator.unionTuples t.tuples (Operator.unionTuples u.tuples v.tuples)) = w := by
  rw [bind_eq_ok_iff]
  constructor
  · intro ⟨uv, first, second⟩
    obtain ⟨hv, rfl⟩ := (Operator.eval_set_eq_ok_iff .union).mp first
    obtain ⟨hu, rfl⟩ := (Operator.eval_set_eq_ok_iff .union).mp second
    exact ⟨⟨hu, hv⟩, rfl⟩
  · intro ⟨⟨hu, hv⟩, hw⟩
    exact ⟨_, (Operator.eval_set_eq_ok_iff .union).mpr ⟨hv, rfl⟩, (Operator.eval_set_eq_ok_iff .union).mpr ⟨hu, hw⟩⟩

/-- The union is associative, to the last row and its place. A table united with itself stays as it is. A union has the
left rows as often as they come on the left, and each further row of the right side once. -/
theorem union_assoc_and_counts (t u v : Table) (session session' : Session) :
    let left := t.union u session >>= fun tu => tu.1.union v tu.2
    let right := u.union v session' >>= fun uv => t.union uv.1 uv.2
    ((∃ w, left = .ok w) ↔ ∃ w, right = .ok w)
      ∧ ((∃ w, left = .ok w)
        ↔ t.schema.unionCompatible u.schema = true ∧ u.schema.unionCompatible v.schema = true)
      ∧ (∀ w w', left = .ok w → right = .ok w' → w.1.SameContent w'.1)
      ∧ (∃ w, t.union t session = .ok w ∧ w.1.schema = t.schema ∧ w.1.tuples = t.tuples)
      ∧ (t.schema.unionCompatible u.schema = true → ∃ w, t.union u session = .ok w
        ∧ (∀ row, w.1.tuples.count row
          = if row ∈ t.tuples then t.tuples.count row else if row ∈ u.tuples then 1 else 0)
        ∧ (∀ row, row ∈ w.1.tuples ↔ row ∈ t.tuples ∨ row ∈ u.tuples)
        ∧ w.1.size ≤ t.size + u.size) := by
  intro left right
  have lefts : (∃ w, left = .ok w) ↔ t.schema.domains = u.schema.domains ∧ u.schema.domains = v.schema.domains := by
    constructor
    · intro ⟨w, h⟩
      obtain ⟨⟨hu, hv⟩, -⟩ := union_union_eq_ok_iff.mp h
      exact ⟨hu, hu ▸ hv⟩
    · intro ⟨hu, hv⟩
      exact ⟨_, union_union_eq_ok_iff.mpr ⟨⟨hu, hu.trans hv⟩, rfl⟩⟩
  have rights : (∃ w, right = .ok w) ↔ t.schema.domains = u.schema.domains ∧ u.schema.domains = v.schema.domains := by
    constructor
    · intro ⟨w, h⟩
      exact (union_of_union_eq_ok_iff.mp h).1
    · intro hd
      exact ⟨_, union_of_union_eq_ok_iff.mpr ⟨hd, rfl⟩⟩
  simp only [Schema.unionCompatible_iff]
  refine ⟨lefts.trans rights.symm, lefts, ?_, ?_, ?_⟩
  · intro w w' h h'
    obtain ⟨-, hw⟩ := union_union_eq_ok_iff.mp h
    obtain ⟨-, hw'⟩ := union_of_union_eq_ok_iff.mp h'
    rw [← hw, ← hw']
    apply sameContent_ofTuples _ _ rfl
    · exact indexKind_ofTuples ..
    · exact Operator.unionTuples_assoc ..
  · refine ⟨_, (Operator.eval_set_eq_ok_iff .union).mpr ⟨rfl, rfl⟩, rfl, ?_⟩
    exact Operator.unionTuples_of_subset fun _ hr => hr
  · intro hd
    refine ⟨_, (Operator.eval_set_eq_ok_iff .union).mpr ⟨hd, rfl⟩, ?_, ?_, ?_⟩
    · intro row
      exact Operator.count_unionTuples row t.tuples u.tuples
    · intro row
      exact Operator.mem_unionTuples_iff
    · rw [size, size, size, ← List.length_append]
      exact (Operator.unionTuples_sublist t.tuples u.tuples).length_le

/-! ### Tables with repeated rows

The heights have the columns of the levels, and the marks have other names for them. -/

/-- Heights at sites, one of which comes twice. -/
def heights : Table :=
  ofTuples "heights" ⟨[⟨"site", .string⟩, ⟨"level", .double⟩], ["level"],
      ⟨by decide, by decide, by decide, by decide, by decide⟩⟩ .hash
    [[.string "Duved", .double 0], [.string "", .double 0x8000000000000000], [.string "Duved", .double 0],
      [.string "", .double 0]]

/-- Heights at places. -/
def marks : Table :=
  ofTuples "marks" ⟨[⟨"place", .string⟩, ⟨"height", .double⟩], ["place", "height"],
      ⟨by decide, by decide, by decide, by decide, by decide⟩⟩ .btree
    [[.string "", .double 0], [.string "Ånn", .double 0], [.string "Ånn", .double 0]]

/-- Of the six rows of the levels and the marks three have come before. -/
theorem union_assoc_and_counts_heights :
    let session : Session := ⟨"2", 0⟩
    let left := heights.union levels session >>= fun tu => tu.1.union marks tu.2
    let right := levels.union marks session >>= fun uv => heights.union uv.1 uv.2
    left.toOption.map (fun w => w.1.size) = some 7
      ∧ (∀ w w', left = .ok w → right = .ok w' → w.1.SameContent w'.1)
      ∧ heights.schema.unionCompatible levels.schema = true
      ∧ ∃ w, heights.union levels session = .ok w
        ∧ (∀ row, w.1.tuples.count row
          = if row ∈ heights.tuples then heights.tuples.count row else if row ∈ levels.tuples then 1 else 0)
        ∧ (∀ row, row ∈ w.1.tuples ↔ row ∈ heights.tuples ∨ row ∈ levels.tuples)
        ∧ w.1.size ≤ heights.size + levels.size := by
  intro session left right
  have compatible : heights.schema.unionCompatible levels.schema = true := by decide
  obtain ⟨-, -, same, -, counts⟩ := union_assoc_and_counts heights levels marks session session
  exact ⟨by decide +kernel, same, compatible, counts compatible⟩

/-! ## Differences and intersections -/

/-- A difference and an intersection share the left rows out, and what is left when the difference is taken away is the
intersection. Taking a union away is taking away its sides one after the other. -/
theorem minus_and_intersect_share (hu : t.schema.unionCompatible u.schema = true)
    (hv : t.schema.unionCompatible v.schema = true) (session session' : Session) :
    (∃ d i, t.minus u session = .ok d ∧ t.intersect u session' = .ok i ∧ Splits t.tuples d.1.tuples i.1.tuples
        ∧ d.1.size + i.1.size = t.size ∧ ∀ row ∈ d.1.tuples, row ∉ u.tuples)
      ∧ SameResult (t.minus u session >>= fun d => t.minus d.1 d.2) (t.intersect u session')
      ∧ SameResult (u.union v session >>= fun uv => t.minus uv.1 uv.2)
        (t.minus u session' >>= fun d => d.1.minus v d.2)
      ∧ ∃ w, (t.minus u session >>= fun d => t.intersect u d.2 >>= fun i => d.1.union i.1 i.2) = .ok w
        ∧ ∀ row, row ∈ w.1.tuples ↔ row ∈ t.tuples := by
  rw [Schema.unionCompatible_iff] at hu hv
  refine ⟨?_, ?_, ?_, ?_⟩
  · obtain ⟨name, next, hd⟩ : Gives (t.minus u session) t.schema t.indexKind _ := gives_minus rfl hu
    obtain ⟨name', next', hi⟩ : Gives (t.intersect u session') t.schema t.indexKind _ := gives_intersect rfl hu
    have shared : Splits t.tuples (t.tuples.filter fun row => row ∉ u.tuples)
        (t.tuples.filter fun row => row ∈ u.tuples) := splits_filter fun row _ => by simp
    refine ⟨_, _, hd, hi, shared, shared.length_eq, ?_⟩
    intro row hr
    exact of_decide_eq_true (List.mem_filter.mp hr).2
  · have again : Gives (t.minus u session >>= fun d => t.minus d.1 d.2) t.schema t.indexKind
        (t.tuples.filter fun row => row ∉ t.tuples.filter fun row => row ∉ u.tuples) :=
      (gives_minus rfl hu).bind fun _ _ _ => gives_minus rfl rfl
    rw [Operator.minus_minus] at again
    exact again.sameResult (gives_intersect rfl hu)
  · have whole : Gives (u.union v session >>= fun uv => t.minus uv.1 uv.2) t.schema t.indexKind
        (t.tuples.filter fun row => row ∉ Operator.unionTuples u.tuples v.tuples) :=
      (gives_union rfl (hu.symm.trans hv)).bind fun _ _ _ => gives_minus rfl hu
    rw [Operator.minus_unionTuples] at whole
    apply whole.sameResult
    exact (gives_minus rfl hu).bind fun _ _ _ => gives_minus (indexKind_ofTuples ..) hv
  · have parts : Gives (t.minus u session >>= fun d => t.intersect u d.2 >>= fun i => d.1.union i.1 i.2) t.schema
        t.indexKind (Operator.unionTuples (t.tuples.filter fun row => row ∉ u.tuples)
          (t.tuples.filter fun row => row ∈ u.tuples)) :=
      (gives_minus rfl hu).bind fun _ _ _ => (gives_intersect rfl hu).bind fun _ _ _ =>
        gives_union (indexKind_ofTuples ..) rfl
    obtain ⟨name, last, hw⟩ := parts
    refine ⟨_, hw, ?_⟩
    intro row
    exact Operator.mem_unionTuples_minus_intersect t.tuples u.tuples

/-- One of the heights is among the levels; another one has a zero of the other sign, and is not. -/
theorem minus_and_intersect_share_heights :
    let session : Session := ⟨"2", 0⟩
    heights.schema.unionCompatible levels.schema = true ∧ heights.schema.unionCompatible marks.schema = true
      ∧ (heights.minus levels session).toOption.map (fun w => w.1.size) = some 3
      ∧ (∃ d i, heights.minus levels session = .ok d ∧ heights.intersect levels session = .ok i
        ∧ Splits heights.tuples d.1.tuples i.1.tuples ∧ d.1.size + i.1.size = heights.size
        ∧ ∀ row ∈ d.1.tuples, row ∉ levels.tuples)
      ∧ SameResult (levels.union marks session >>= fun uv => heights.minus uv.1 uv.2)
        (heights.minus levels session >>= fun d => d.1.minus marks d.2) := by
  intro session
  have hu : heights.schema.unionCompatible levels.schema = true := by decide
  have hv : heights.schema.unionCompatible marks.schema = true := by decide
  obtain ⟨shared, -, less, -⟩ := minus_and_intersect_share hu hv session session
  exact ⟨hu, hv, by decide +kernel, shared, less⟩

/-! ## Selections -/

section Selections

variable (op : Operator) {combine : List Tuple → List Tuple → List Tuple} (ho : op.Combines combine)
  (ht : t.Reachable) (hd : t.schema.domains = u.schema.domains) {text : String} {c : Condition}
  (hc : Condition.parse text = .ok c) {b : BoundCondition} (hb : c.bindLiteral t.schema = .ok b) {session : Session}
include ho ht hd hc hb

/-- The rows are combined, and then selected. -/
theorem gives_selectWhere_set (hu : u.Reachable) :
    Gives (op.eval [t, u] session >>= fun w => w.1.selectWhere text w.2) t.schema t.indexKind
      ((combine t.tuples u.tuples).filter b.satisfied) := by
  apply (gives_set rfl op ho hd).bind
  intro name next made
  have both : ∀ input ∈ [t, u], input.Reachable := by simp [ht, hu]
  exact gives_selectWhere (indexKind_ofTuples ..) (Operator.reachable_of_eval both made).wellFormed hc hb

/-- The left rows are selected, and then combined with the right ones. -/
theorem gives_set_selectWhere_left :
    Gives (t.selectWhere text session >>= fun f => op.eval [f.1, u] f.2) t.schema t.indexKind
      (combine (t.tuples.filter b.satisfied) u.tuples) := by
  apply (gives_selectWhere rfl ht.wellFormed hc hb).bind
  intro name next _
  exact gives_set (indexKind_ofTuples ..) op ho hd

/-- The rows of both sides are selected, and then combined. -/
theorem gives_set_selectWhere (hu : u.Reachable) (hn : t.schema.attributes = u.schema.attributes) :
    Gives (t.selectWhere text session >>= fun f => u.selectWhere text f.2 >>= fun g => op.eval [f.1, g.1] g.2)
      t.schema t.indexKind (combine (t.tuples.filter b.satisfied) (u.tuples.filter b.satisfied)) := by
  -- Both sides have the same attributes, so the condition is bound to the same column.
  have hb' : c.bindLiteral u.schema = .ok b := by
    rw [Condition.bindLiteral_eq_ok_iff, ← hn]
    exact Condition.bindLiteral_eq_ok_iff.mp hb
  apply (gives_selectWhere rfl ht.wellFormed hc hb).bind
  intro name next _
  apply (gives_selectWhere rfl hu.wellFormed hc hb').bind
  intro name' next' _
  exact gives_set (indexKind_ofTuples ..) op ho hd

end Selections

/-- A selection may be made of both sides of a set operator instead of its result, and of the left side alone where the
operator takes rows from there only. -/
theorem selectWhere_set_operators (ht : t.Reachable) (hu : u.Reachable)
    (hd : t.schema.unionCompatible u.schema = true) (hn : t.schema.names = u.schema.names) {text : String}
    {c : Condition} (hc : Condition.parse text = .ok c) {b : BoundCondition} (hb : c.bindLiteral t.schema = .ok b)
    (session session' : Session) :
    SameResult (t.union u session >>= fun w => w.1.selectWhere text w.2)
        (t.selectWhere text session' >>= fun f => u.selectWhere text f.2 >>= fun g => f.1.union g.1 g.2)
      ∧ SameResult (t.minus u session >>= fun w => w.1.selectWhere text w.2)
        (t.selectWhere text session' >>= fun f => u.selectWhere text f.2 >>= fun g => f.1.minus g.1 g.2)
      ∧ SameResult (t.minus u session >>= fun w => w.1.selectWhere text w.2)
        (t.selectWhere text session' >>= fun f => f.1.minus u f.2)
      ∧ SameResult (t.intersect u session >>= fun w => w.1.selectWhere text w.2)
        (t.selectWhere text session' >>= fun f => f.1.intersect u f.2) := by
  rw [Schema.unionCompatible_iff] at hd
  have same : t.schema.attributes = u.schema.attributes := by
    rw [← Schema.pair_names_domains, ← Schema.pair_names_domains, hn, hd]
  have less : (t.tuples.filter fun row => row ∉ u.tuples).filter b.satisfied
      = (t.tuples.filter b.satisfied).filter fun row => row ∉ u.tuples := List.filter_comm ..
  have common : (t.tuples.filter fun row => row ∈ u.tuples).filter b.satisfied
      = (t.tuples.filter b.satisfied).filter fun row => row ∈ u.tuples := List.filter_comm ..
  have late : ∀ (op : Operator) {combine : List Tuple → List Tuple → List Tuple}, op.Combines combine →
      Gives (op.eval [t, u] session >>= fun w => w.1.selectWhere text w.2) t.schema t.indexKind
        ((combine t.tuples u.tuples).filter b.satisfied) :=
    fun op _ ho => gives_selectWhere_set op ho ht hd hc hb hu
  refine ⟨?_, ?_, ?_, ?_⟩
  · apply (late .union .union).sameResult
    rw [Operator.filter_unionTuples]
    exact gives_set_selectWhere .union .union ht hd hc hb hu same
  · apply (late .minus .minus).sameResult
    rw [less, ← Operator.filter_minus_filter]
    exact gives_set_selectWhere .minus .minus ht hd hc hb hu same
  · apply (late .minus .minus).sameResult
    rw [less]
    exact gives_set_selectWhere_left .minus .minus ht hd hc hb
  · apply (late .intersect .intersect).sameResult
    rw [common]
    exact gives_set_selectWhere_left .intersect .intersect ht hd hc hb

/-- The key of the heights is another one than that of the levels. -/
theorem selectWhere_set_operators_heights :
    let session : Session := ⟨"2", 0⟩
    let text := "site == ''"
    heights.Reachable ∧ levels.Reachable ∧ heights.schema.unionCompatible levels.schema = true
      ∧ heights.schema.names = levels.schema.names ∧ Condition.parse text = .ok ⟨"site", .eq, "''"⟩
      ∧ Condition.bindLiteral ⟨"site", .eq, "''"⟩ heights.schema = .ok ⟨0, .eq, .string ""⟩
      ∧ SameResult (heights.union levels session >>= fun w => w.1.selectWhere text w.2)
        (heights.selectWhere text session >>= fun f => levels.selectWhere text f.2 >>= fun g => f.1.union g.1 g.2)
      ∧ SameResult (heights.minus levels session >>= fun w => w.1.selectWhere text w.2)
        (heights.selectWhere text session >>= fun f => f.1.minus levels f.2) := by
  intro session text
  have hh : heights.Reachable := .ofTuples "heights" .hash (by decide)
  have hd : heights.schema.unionCompatible levels.schema = true := by decide
  have hn : heights.schema.names = levels.schema.names := by decide
  have hc : Condition.parse text = .ok ⟨"site", .eq, "''"⟩ := by decide +kernel
  have hb : Condition.bindLiteral ⟨"site", .eq, "''"⟩ heights.schema = .ok ⟨0, .eq, .string ""⟩ := by decide +kernel
  obtain ⟨united, -, less, -⟩ := selectWhere_set_operators hh reachable_levels hd hn hc hb session session
  exact ⟨hh, reachable_levels, hd, hn, hc, hb, united, less⟩

end Table

end Relata
