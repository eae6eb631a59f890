import Relata.Proofs.Catalogs
import Relata.Proofs.Reachable
/-!
# Names of results

A session names a result by a base and the number of the name. The numbers differ, but a base may end in
digits, most often because it was derived itself, and then two names can be the same: `names_eq_iff_spills`
says exactly when. Where no two are, a catalog keeps every result that is saved in it.
-/

namespace Relata

/-! ## Numbers behind a base -/

section Numbers

variable {base other : String} {i j : Nat}

/-- A smaller number behind one base spells what a greater one spells behind another exactly when the
greater one starts with digits that the first base ends in. -/
theorem append_toString_eq_iff (h : i < j) : base ++ toString i = other ++ toString j
    ↔ ∃ digits, digits ≠ "" ∧ base = other ++ digits ∧ toString j = digits ++ toString i := by
  constructor
  · intro he
    rw [← String.toList_inj, String.toList_append, String.toList_append, List.append_eq_append_iff] at he
    rcases he with ⟨front, -, hi⟩ | ⟨digits, hb, hj⟩
    · rw [Numeral.toList_toString, Numeral.toList_toString] at hi
      have := Numeral.le_of_toDigits_eq_append hi
      omega
    · refine ⟨String.ofList digits, ?_, ?_, ?_⟩
      · intro hd
        have none : digits = [] := by rw [← String.toList_ofList (l := digits), hd]; rfl
        rw [none, Numeral.toList_toString, Numeral.toList_toString] at hj
        have same : Nat.toDigits 10 i = [] ++ Nat.toDigits 10 j := hj.symm
        have := Numeral.le_of_toDigits_eq_append same
        omega
      · rw [← String.toList_inj, String.toList_append, String.toList_ofList, hb]
      · rw [← String.toList_inj, String.toList_append, String.toList_ofList, hj]
  · intro ⟨digits, _, hb, hj⟩
    rw [hb, hj, String.append_assoc]

end Numbers

/-! ## Bases of results -/

namespace Operator

/-- Whatever comes of a step is named after the first input. -/
def Based (inputs : List Table) (step : Except Rejection Result) : Prop :=
  ∀ result, step = .ok result → inputs.head? = some result.base

section Based

variable {inputs : List Table}

theorem Based.bind {α : Type} {step : Except Rejection α} {next : α → Except Rejection Result}
    (h : ∀ a, Based inputs (next a)) : Based inputs (step >>= next) := by
  intro result hr
  obtain ⟨a, -, hr⟩ := exists_of_bind_eq_ok hr
  exact h a result hr

theorem Based.result {base : Table} {schema : Schema} {tuples : List Tuple} (h : inputs.head? = some base) :
    Based inputs (.ok ⟨base, schema, tuples⟩) := by
  intro result hr
  cases hr
  exact h

theorem Based.error (rejection : Rejection) : Based inputs (.error rejection) := by
  intro result hr
  cases hr

theorem Based.one (op : Operator) {next : Table → Except Rejection Result}
    (h : ∀ t, inputs.head? = some t → Based inputs (next t)) : Based inputs (op.one inputs >>= next) := by
  match inputs with
  | [t] => exact h t rfl
  | [] => exact .error _
  | t :: u :: rest => exact .error _

theorem Based.two (op : Operator) {next : Table × Table → Except Rejection Result}
    (h : ∀ pair, inputs.head? = some pair.1 → Based inputs (next pair)) :
    Based inputs (op.two inputs >>= next) := by
  match inputs with
  | [t, u] => exact h (t, u) rfl
  | [] => exact .error _
  | [t] => exact .error _
  | t :: u :: v :: rest => exact .error _

/-- Every operator names its result after its first input. -/
theorem based_result (op : Operator) (inputs : List Table) : Based inputs (op.result inputs) := by
  cases op with
  | project attributes => exact .one _ fun t h => .bind fun _ => .bind fun _ => .bind fun _ => .result h
  | select predicate => exact .one _ fun t h => .bind fun _ => .bind fun _ => .result h
  | filter condition => exact .one _ fun t h => .bind fun _ => .bind fun _ => .bind fun _ => .result h
  | selectKey key => exact .one _ fun t h => .bind fun _ => .result h
  | union => exact .two _ fun pair h => .bind fun _ => .result h
  | minus => exact .two _ fun pair h => .bind fun _ => .result h
  | intersect => exact .two _ fun pair h => .bind fun _ => .result h
  | join l r suffix =>
    exact .two _ fun pair h => .bind fun _ => .bind fun _ => .bind fun _ => .result h
  | indexJoin l r suffix =>
    exact .two _ fun pair h => .bind fun _ => .bind fun _ => .bind fun _ => .result h
  | hashJoin l r suffix => exact .two _ fun pair h => .bind fun _ => .error _
  | thetaJoin condition suffix =>
    exact .two _ fun pair h => .bind fun _ => .bind fun _ => .bind fun _ => .bind fun _ => .result h
  | naturalJoin => exact .two _ fun pair h => .bind fun _ => .bind fun _ => .result h

end Based

/-- A run takes its result's name from the session, and the name of its first input as the base. -/
theorem exists_base_of_run {op : Operator} {inputs : List Table} {session session' : Session} {t : Table}
    (h : op.run inputs session = (.ok t, session')) :
    ∃ base, inputs.head? = some base ∧ t.name = (session.fresh base.name).1
      ∧ session' = (session.fresh base.name).2 := by
  rw [run] at h
  split at h
  · cases h
  · next result hr =>
    cases h
    exact ⟨result.base, op.based_result inputs result hr, rfl, rfl⟩

theorem run_of_error {op : Operator} {inputs : List Table} {session session' : Session}
    {rejection : Rejection} (h : op.run inputs session = (.error rejection, session')) :
    session' = session := by
  rw [run] at h
  split at h
  · cases h
    rfl
  · cases h

end Operator

/-! ## A session at work -/

/-- A name that a session handed out, with the base it was derived from. -/
structure Naming where
  base : String
  name : String

/-- The earlier base ends in digits that the later number starts with, and these are all that tells the
two bases and the two numbers apart. -/
def Naming.Spills (m : Naming) (i : Nat) (n : Naming) (j : Nat) : Prop :=
  ∃ digits, digits ≠ "" ∧ m.base = n.base ++ digits ∧ toString j = digits ++ toString i

/-- The next name that a session derives from a base. -/
def Session.naming (s : Session) (base : String) : Naming := ⟨base, (s.fresh base).1⟩

/-- What is asked of a session. -/
inductive Request where
  /-- A name derived from any base. -/
  | name (base : String)
  /-- An operator on tables and results, which are counted on from the tables. -/
  | run (op : Operator) (places : List Nat)

/-- A session with the tables that it works on, its results and the names it handed out. -/
structure Workspace where
  session : Session
  tables : List Table
  results : List Table
  namings : List Naming

namespace Workspace

/-- A session that has handed out no name. -/
def start (settings : Settings) (tables : List Table) : Workspace := ⟨.ofSettings settings, tables, [], []⟩

def pick (w : Workspace) (places : List Nat) : List Table :=
  places.filterMap fun place => (w.tables ++ w.results)[place]?

def answer (w : Workspace) : Request → Workspace
  | .name base =>
    { w with
      session := (w.session.fresh base).2
      namings := w.namings ++ [w.session.naming base] }
  | .run op places =>
    match op.run (w.pick places) w.session with
    | (.error _, session) => { w with session }
    | (.ok t, session) =>
      { w with
        session
        results := w.results ++ [t]
        namings := w.namings ++ ((w.pick places).head?.map fun base => ⟨base.name, t.name⟩).toList }

def after (w : Workspace) (requests : List Request) : Workspace := requests.foldl answer w

/-- What every answer keeps holds after any requests. -/
theorem after_induction {motive : Workspace → Prop} {w : Workspace} (h : motive w)
    (step : ∀ w request, motive w → motive (answer w request)) (requests : List Request) :
    motive (w.after requests) := by
  induction requests generalizing w with
  | nil => exact h
  | cons request rest ih => exact ih (step w request h)

/-- The names are spelled by their bases and their numbers, and the results have some of them. -/
structure Tallied (w : Workspace) : Prop where
  derived_eq : w.session.derived = w.namings.length.toUInt64
  name_eq : ∀ (i : Nat) (n : Naming), w.namings[i]? = some n → n.name = n.base ++ toString i.toUInt64.toNat
  sublist : (w.results.map Table.name).Sublist (w.namings.map Naming.name)

theorem Tallied.fresh {w : Workspace} (h : w.Tallied) (base : String) {results : List Table}
    (hs : (results.map Table.name).Sublist ((w.namings ++ [w.session.naming base]).map Naming.name)) :
    Tallied ⟨(w.session.fresh base).2, w.tables, results, w.namings ++ [w.session.naming base]⟩ where
  derived_eq := by
    show w.session.derived + 1 = (w.namings ++ [w.session.naming base]).length.toUInt64
    rw [List.length_append, Nat.toUInt64_eq, UInt64.ofNat_add, h.derived_eq]
    rfl
  name_eq i n hn := by
    rw [List.getElem?_append] at hn
    by_cases hi : i < w.namings.length
    · rw [if_pos hi] at hn
      exact h.name_eq i n hn
    · rw [if_neg hi, List.getElem?_singleton] at hn
      split at hn
      · next last =>
        -- The number of the new name is the count of those before it.
        have count : i = w.namings.length := by omega
        cases hn
        rw [count, ← h.derived_eq]
        rfl
      · cases hn
  sublist := hs

theorem Tallied.answer {w : Workspace} (h : w.Tallied) (request : Request) : (w.answer request).Tallied := by
  cases request with
  | name base =>
    apply h.fresh base
    rw [List.map_append]
    exact h.sublist.trans (List.sublist_append_left _ _)
  | run op places =>
    rw [Workspace.answer]
    split
    · next rejection session' hr =>
      rw [Operator.run_of_error hr]
      exact h
    · next t session' hr =>
      obtain ⟨base, hb, ht, rfl⟩ := Operator.exists_base_of_run hr
      rw [hb, ht]
      apply h.fresh base.name
      rw [List.map_append, List.map_append]
      apply h.sublist.append
      rw [List.map_singleton, ht]
      rfl

theorem reachable_answer {w : Workspace} (h : ∀ t ∈ w.tables ++ w.results, t.Reachable) (request : Request) :
    ∀ t ∈ (w.answer request).tables ++ (w.answer request).results, t.Reachable := by
  cases request with
  | name base => exact h
  | run op places =>
    rw [Workspace.answer]
    split
    · exact h
    · next t session' hr =>
      have picked : ∀ input ∈ w.pick places, input.Reachable := by
        intro input hi
        obtain ⟨place, -, hp⟩ := List.mem_filterMap.mp hi
        exact h input (List.mem_of_getElem? hp)
      intro u hu
      rw [← List.append_assoc] at hu
      rcases List.mem_append.mp hu with hu | hu
      · exact h u hu
      · exact List.mem_singleton.mp hu ▸ .run picked hr

section Start

variable (settings : Settings) (tables : List Table)

theorem tallied_after (requests : List Request) : ((start settings tables).after requests).Tallied := by
  apply after_induction
  · exact ⟨rfl, nofun, List.Sublist.slnil⟩
  · intro w request h
    exact h.answer request

variable {tables} in
theorem reachable_after (hr : ∀ t ∈ tables, t.Reachable) (requests : List Request) :
    ∀ t ∈ ((start settings tables).after requests).results, t.Reachable := by
  have all : ∀ t ∈ ((start settings tables).after requests).tables
      ++ ((start settings tables).after requests).results, t.Reachable := by
    apply after_induction (motive := fun w => ∀ t ∈ w.tables ++ w.results, t.Reachable)
    · intro t ht
      exact hr t (List.append_nil tables ▸ ht)
    · intro w request h
      exact reachable_answer h request
  intro t ht
  exact all t (List.mem_append_right _ ht)

end Start

section Names

variable {w : Workspace} (h : w.Tallied) (hn : w.namings.length < UInt64.size)
include h hn

theorem Tallied.name_of_lt {i : Nat} {n : Naming} (hi : w.namings[i]? = some n) :
    n.name = n.base ++ toString i := by
  obtain ⟨hl, -⟩ := List.getElem?_eq_some_iff.mp hi
  have number : i.toUInt64.toNat = i := Nat.mod_eq_of_lt (Nat.lt_trans hl hn)
  rw [h.name_eq i n hi, number]

theorem Tallied.name_eq_iff {i j : Nat} {m n : Naming} (hij : i < j) (hi : w.namings[i]? = some m)
    (hj : w.namings[j]? = some n) : m.name = n.name ↔ m.Spills i n j := by
  rw [h.name_of_lt hn hi, h.name_of_lt hn hj]
  exact append_toString_eq_iff hij

theorem Tallied.nodup_iff : (w.namings.map Naming.name).Nodup ↔ ∀ (i j : Nat) (m n : Naming), i < j →
    w.namings[i]? = some m → w.namings[j]? = some n → ¬m.Spills i n j := by
  rw [List.nodup_iff_getElem?_ne_getElem?]
  constructor
  · intro distinct i j m n hij hi hj hs
    obtain ⟨hl, -⟩ := List.getElem?_eq_some_iff.mp hj
    apply distinct i j hij (by rwa [List.length_map])
    rw [List.getElem?_map, List.getElem?_map, hi, hj, Option.map_some, Option.map_some,
      (h.name_eq_iff hn hij hi hj).mpr hs]
  · intro apart i j hij hl he
    rw [List.length_map] at hl
    have hi := List.getElem?_eq_getElem (Nat.lt_trans hij hl)
    have hj := List.getElem?_eq_getElem hl
    rw [List.getElem?_map, List.getElem?_map, hi, hj, Option.map_some, Option.map_some,
      Option.some.injEq] at he
    exact apart i j _ _ hij hi hj ((h.name_eq_iff hn hij hi hj).mp he)

end Names

/-- A catalog keeps results that are saved in it if no two of them have one name. -/
theorem load_of_saved {results : List Table} (hn : (results.map Table.name).Nodup)
    (hr : ∀ t ∈ results, t.Reachable) (hs : ∀ t ∈ results, Catalog.isSlotName t.name = true
      ∧ (Snapshot.payload t).length ≤ Snapshot.maxPayload.toNat) :
    ∀ t ∈ results, ∃ t', (Catalog.after (.inMemory .stored) (results.map .save)).load t.name = .ok t'
      ∧ t'.Alike t := by
  intro t ht
  have storable : ∀ call ∈ results.map Catalog.Call.save, call.Storable := by
    intro call hc
    obtain ⟨u, hu, rfl⟩ := List.mem_map.mp hc
    exact ⟨(hr u hu).wellFormed, (hs u hu).2⟩
  exact (Catalog.Keeps.inMemory.after storable).shows.load_ok t.name t
    (Catalog.held_saves hn ht (hs t ht).1)

/-- A name is its base and its number. Two names are the same exactly when digits at the end of the earlier
base spill into the later number. Where that does not happen, the names are distinct, and no result is lost
when all are saved in one catalog. -/
theorem names_eq_iff_spills (settings : Settings) {tables : List Table} (hr : ∀ t ∈ tables, t.Reachable)
    (requests : List Request)
    (hn : ((start settings tables).after requests).namings.length < UInt64.size) :
    let w := (start settings tables).after requests
    (∀ (i : Nat) (n : Naming), w.namings[i]? = some n → n.name = n.base ++ toString i)
      ∧ (∀ (i j : Nat) (m n : Naming), i < j → w.namings[i]? = some m → w.namings[j]? = some n →
        (m.name = n.name ↔ m.Spills i n j))
      ∧ ((w.namings.map Naming.name).Nodup ↔ ∀ (i j : Nat) (m n : Naming), i < j →
        w.namings[i]? = some m → w.namings[j]? = some n → ¬m.Spills i n j)
      ∧ ((w.namings.map Naming.name).Nodup →
        (∀ t ∈ w.results, Catalog.isSlotName t.name = true
          ∧ (Snapshot.payload t).length ≤ Snapshot.maxPayload.toNat) →
        ∀ t ∈ w.results, ∃ t', (Catalog.after (.inMemory .stored) (w.results.map .save)).load t.name = .ok t'
          ∧ t'.Alike t) := by
  have tallied := tallied_after settings tables requests
  refine ⟨?_, ?_, tallied.nodup_iff hn, ?_⟩
  · intro i n hi
    exact tallied.name_of_lt hn hi
  · intro i j m n hij hi hj
    exact tallied.name_eq_iff hn hij hi hj
  · intro distinct hs
    exact load_of_saved (distinct.sublist tallied.sublist) (reachable_after settings hr requests) hs

/-- Two selections from the levels, and one from the second of them. -/
def selections : List Request :=
  [.run (.select fun _ => some true) [0], .run (.select fun _ => some true) [0],
    .run (.select fun _ => some true) [2]]

theorem names_eq_iff_spills_selections :
    let w := (start .standard [Table.levels]).after selections
    w.namings.map Naming.name = ["levels0", "levels1", "levels12"]
      ∧ ∀ t ∈ w.results, ∃ t', (Catalog.after (.inMemory .stored) (w.results.map .save)).load t.name = .ok t'
        ∧ t'.Alike t :=
  have reachable : ∀ t ∈ [Table.levels], t.Reachable := by
    intro t ht
    exact List.mem_singleton.mp ht ▸ Table.reachable_levels
  have names : ((start .standard [Table.levels]).after selections).namings.map Naming.name
      = ["levels0", "levels1", "levels12"] := by
    decide +kernel
  have kept := (names_eq_iff_spills .standard reachable selections (by decide +kernel)).2.2.2
  ⟨names, kept (names ▸ by decide) (by decide +kernel)⟩

/-- Ten more selections from the levels bring the name of the third one again, so one of the thirteen
results is lost when all are saved. -/
theorem names_of_selections_repeat :
    let w := (start .standard [Table.levels]).after
      (selections ++ List.replicate 10 (.run (.select fun _ => some true) [0]))
    ¬(w.namings.map Naming.name).Nodup ∧ w.results.length = 13
      ∧ (Catalog.after (.inMemory .stored) (w.results.map .save)).slots.length = 12 := by
  decide +kernel

end Workspace

end Relata
