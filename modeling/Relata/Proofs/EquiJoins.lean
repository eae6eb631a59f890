import Mathlib.Data.List.Perm.Basic
import Relata.Proofs.Keyed
/-!
# Equi-joins by names

All that an equi-join reads off its lists of names is which names are paired: it is taken where the pairs name
attributes of the two sides with one domain each (`PairsUp`), and it relates the rows that agree at them
(`equiPairing_eq_ok_iff`). So the pairs may come in another order or more than once. With its sides exchanged it gives
the same rows in another order, each with its two blocks of columns exchanged (`equiJoin_exchanged_and_reordered`).
-/

namespace Relata

/-! ## Sides exchanged -/

/-- A row with its first columns put behind the others. -/
def Tuple.exchange (n : Nat) (row : Tuple) : Tuple := row.drop n ++ row.take n

theorem Tuple.exchange_append {n : Nat} {l : Tuple} (h : l.length = n) (r : Tuple) : (l ++ r).exchange n = r ++ l := by
  rw [exchange, List.drop_left' h, List.take_left' h]

theorem map_filter_eq_flatMap {α β : Type} (keep : α → Bool) (f : α → β) (l : List α) :
    (l.filter keep).map f = l.flatMap fun a => if keep a then [f a] else [] := by
  induction l with
  | nil => rfl
  | cons a l ih => cases h : keep a <;> simp [h, ih]

namespace Join

variable {related : Tuple → Tuple → Bool} {together : Tuple → Tuple → Tuple}

/-- The same pairs are found with the loops the other way round, in another order. -/
theorem nested_perm (lefts rights : List Tuple) : (nested related together lefts rights).Perm
    (nested (fun r l => related l r) (fun r l => together l r) rights lefts) := by
  induction lefts with
  | nil => simp [nested]
  | cons l lefts ih =>
    -- Each right row contributes its pair with the first left row, and then those with the others.
    have turned : nested (fun r l => related l r) (fun r l => together l r) rights (l :: lefts)
        = rights.flatMap fun r => (if related l r then [together l r] else [])
          ++ (lefts.filter fun l => related l r).map fun l => together l r := by
      apply List.flatMap_congr
      intro r _
      cases h : related l r <;> simp [h]
    rw [nested_cons, turned, map_filter_eq_flatMap]
    exact (ih.append_left _).trans (List.flatMap_append_perm rights _ _)

/-- Two joins that relate the same rows, each with the sides of the other exchanged, give the same rows, in another
order and with the blocks of columns exchanged. -/
theorem nested_perm_exchange {related' : Tuple → Tuple → Bool} (h : ∀ l r, related' r l = related l r)
    {lefts : List Tuple} {n : Nat} (hn : ∀ row ∈ lefts, row.length = n) (rights : List Tuple) :
    (nested related' (fun r l => r ++ l) rights lefts).Perm
      ((nested related (fun l r => l ++ r) lefts rights).map (Tuple.exchange n)) := by
  have turned : nested (fun l r => related' r l) (fun l r => r ++ l) lefts rights
      = (nested related (fun l r => l ++ r) lefts rights).map (Tuple.exchange n) := by
    simp only [nested, List.map_flatMap, List.map_map, h]
    apply List.flatMap_congr
    intro l hl
    apply List.map_congr_left
    intro r _
    exact (Tuple.exchange_append (hn l hl) r).symm
  rw [← turned]
  exact nested_perm rights lefts

end Join

/-! ## Rows that agree at paired names -/

namespace Join

variable {left right : Schema} {l r l' r' : List String}

theorem agreeAt_symm (a b : Tuple) : agreeAt right left (r.zip l) b a = agreeAt left right (l.zip r) a b := by
  rw [agreeAt, agreeAt, ← List.zip_swap l r, List.all_map]
  simp only [Function.comp_def, Prod.fst_swap, Prod.snd_swap, BEq.comm]

theorem agreeAt_congr (hp : ∀ p, p ∈ l'.zip r' ↔ p ∈ l.zip r) :
    agreeAt left right (l'.zip r') = agreeAt left right (l.zip r) := by
  funext a b
  rw [Bool.eq_iff_iff, agreeAt, agreeAt, List.all_eq_true, List.all_eq_true]
  simp only [hp]

end Join

/-! ## Equi-joins -/

namespace Operator

variable {left right : Schema} {l r : List String} {suffix : String} {p : Join.Pairing}

/-- An equi-join is taken where its names pair up, and relates the rows that agree at them. -/
theorem equiPairing_eq_ok_iff : equiPairing l r suffix left right = .ok p ↔ Join.PairsUp left right l r
    ∧ ∃ s, Join.schema left right suffix = .ok s ∧ ⟨s, Join.agreeAt left right (l.zip r), id⟩ = p := by
  rw [← Join.exists_columns_iff]
  constructor
  · intro h
    obtain ⟨c, hc, h⟩ := exists_of_bind_eq_ok h
    obtain ⟨s, hs, h⟩ := exists_of_bind_eq_ok h
    have hc := lift_eq_ok_iff.mp hc
    refine ⟨⟨c, hc⟩, s, lift_eq_ok_iff.mp hs, ?_⟩
    rw [← Join.agree_eq_agreeAt hc]
    exact Except.ok.inj h
  · rintro ⟨⟨c, hc⟩, s, hs, rfl⟩
    rw [equiPairing, hc]
    show (Rejection.lift (Join.schema left right suffix) >>= _) = _
    rw [hs, ← Join.agree_eq_agreeAt hc]
    rfl

end Operator

namespace Table

variable {t u : Table}

/-- What an equi-join leaves in a session, whether its rows are found by comparing every pair or through an index. -/
theorem eval_equiJoin_eq_ok_iff (ht : t.WellFormed) (hu : u.WellFormed)
    {equi : List String → List String → String → Operator} (he : equi ∈ [Operator.join, Operator.indexJoin])
    {l r : List String} {suffix : String} {session : Session} {w : Table × Session} :
    (equi l r suffix).eval [t, u] session = .ok w ↔ ∃ p, Operator.equiPairing l r suffix t.schema u.schema = .ok p
      ∧ session.derive t p.schema (p.rows t.tuples u.tuples) = w := by
  rcases List.mem_pair.mp he with rfl | rfl
  · exact Operator.eval_join_eq_ok_iff ht hu rfl
  · exact Operator.eval_join_eq_ok_iff ht hu rfl

/-- An equi-join can be taken with its sides exchanged, and gives the same rows in another order, with the right columns
first. Its pairs of names may come in another order, and more than once, and it gives the same table. -/
theorem equiJoin_exchanged_and_reordered (ht : t.Reachable) (hu : u.Reachable)
    {equi : List String → List String → String → Operator} (he : equi ∈ [Operator.join, Operator.indexJoin])
    {l r : List String} {suffix : String} {session : Session} {w : Table × Session}
    (h : (equi l r suffix).eval [t, u] session = .ok w) :
    (∀ (suffix' : String) (session' : Session), ∃ w', (equi r l suffix').eval [u, t] session' = .ok w'
        ∧ w'.1.tuples.Perm (w.1.tuples.map (Tuple.exchange t.schema.arity)))
      ∧ ∀ l' r' : List String, l'.length = r'.length → (∀ p, p ∈ l'.zip r' ↔ p ∈ l.zip r) →
        (equi l' r' suffix).eval [t, u] session = .ok w := by
  have ht := ht.wellFormed
  have hu := hu.wellFormed
  obtain ⟨p, hp, rfl⟩ := (eval_equiJoin_eq_ok_iff ht hu he).mp h
  obtain ⟨paired, s, hs, rfl⟩ := Operator.equiPairing_eq_ok_iff.mp hp
  refine ⟨?_, ?_⟩
  · intro suffix' session'
    obtain ⟨s', hs'⟩ := Join.exists_schema u.schema t.schema suffix'
    refine ⟨_, (eval_equiJoin_eq_ok_iff hu ht he).mpr ⟨_,
      Operator.equiPairing_eq_ok_iff.mpr ⟨paired.symm, s', hs', rfl⟩, rfl⟩, ?_⟩
    exact Join.nested_perm_exchange Join.agreeAt_symm (length_of_conforms ht.conforms) u.tuples
  · intro l' r' lengths pairs
    refine (eval_equiJoin_eq_ok_iff ht hu he).mpr ⟨_,
      Operator.equiPairing_eq_ok_iff.mpr ⟨paired.of_mem_zip_iff lengths pairs, s, hs, rfl⟩, ?_⟩
    rw [Join.agreeAt_congr pairs]

/-- A river with two sites and three levels, of which one comes twice, has six rows. -/
theorem equiJoin_exchanged_and_reordered_rivers :
    let session : Session := ⟨"2", 0⟩
    rivers.Reachable ∧ sites.Reachable ∧ Operator.indexJoin ∈ [Operator.join, Operator.indexJoin]
      ∧ ∃ w w', (Operator.indexJoin ["river"] ["river"] "2").eval [rivers, sites] session = .ok w ∧ w.1.size = 7
        ∧ (Operator.indexJoin ["river"] ["river"] "2").eval [sites, rivers] session = .ok w'
        ∧ w'.1.tuples.Perm (w.1.tuples.map (Tuple.exchange 2))
        ∧ (Operator.indexJoin ["river", "river"] ["river", "river"] "2").eval [rivers, sites] session = .ok w := by
  intro session
  have hr : rivers.Reachable := .ofTuples "rivers" .hash (by decide)
  have hs : sites.Reachable := .ofTuples "sites" .hash (by decide)
  have indexed : Operator.indexJoin ∈ [Operator.join, Operator.indexJoin] := by simp
  have size : ((Operator.indexJoin ["river"] ["river"] "2").eval [rivers, sites] session).toOption.map
      (fun w => w.1.size) = some 7 := by decide +kernel
  cases h : (Operator.indexJoin ["river"] ["river"] "2").eval [rivers, sites] session with
  | error rejection =>
    rw [h] at size
    cases size
  | ok w =>
    rw [h] at size
    obtain ⟨exchanged, reordered⟩ := equiJoin_exchanged_and_reordered hr hs indexed h
    obtain ⟨w', hw', rows⟩ := exchanged "2" session
    have again := reordered ["river", "river"] ["river", "river"] rfl (by simp)
    exact ⟨hr, hs, indexed, w, w', rfl, Option.some.inj size, hw', rows, again⟩

end Table

end Relata
