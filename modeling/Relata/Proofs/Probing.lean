import Relata.Proofs.Buckets
import Relata.Proofs.JoinRows
/-!
# Joins through an index

An index over the right rows finds under a key the rows that show it. Showing a key at columns is agreeing on the
columns one by one (`agree_zip_iff`), so probing the index gives the rows of the nested loop (`byIndex?_eq_some`).
-/

namespace Relata

namespace Join

/-- Rows agree on columns in pairs exactly when they show the same key at them. -/
theorem agree_zip_iff {l r : List Nat} {a b : Tuple} (hn : l.length = r.length)
    (hl : ∀ c ∈ l, c < a.length) (hr : ∀ c ∈ r, c < b.length) :
    agree (l.zip r) a b = true ↔ b.project r = a.project l := by
  induction l generalizing r with
  | nil =>
    rw [List.length_eq_zero_iff.mp hn.symm]
    exact ⟨fun _ => rfl, fun _ => rfl⟩
  | cons c l ih =>
    cases r with
    | nil => cases hn
    | cons d r =>
      have hc := List.getElem?_eq_getElem (hl c List.mem_cons_self)
      have hd := List.getElem?_eq_getElem (hr d List.mem_cons_self)
      have tail := ih (Nat.succ.inj hn) (fun e he => hl e (List.mem_cons_of_mem c he))
        fun e he => hr e (List.mem_cons_of_mem d he)
      rw [agree] at tail ⊢
      rw [List.zip_cons_cons, List.all_cons, Bool.and_eq_true, tail, beq_iff_eq, hc, hd, Option.some.injEq,
        Tuple.project_cons hc, Tuple.project_cons hd, List.cons.injEq]
      exact and_congr_left' eq_comm

/-- Probing an index over the right rows gives the rows that the nested loop gives. -/
theorem byIndex?_eq_some {left right : Schema} {lefts rights : List Tuple} {l r : List Nat}
    (hls : ∀ row ∈ lefts, left.Fits row) (hrs : ∀ row ∈ rights, right.Fits row)
    (hn : l.length = r.length) (hl : ∀ c ∈ l, c < left.arity) (hr : ∀ c ∈ r, c < right.arity) :
    byIndex? l r lefts rights = some (nested (agree (l.zip r)) List.append lefts rights) := by
  have index : MultiIndex.build? rights r = some (MultiIndex.build rights r) :=
    MultiIndex.build?_eq_some fun t ht => (hrs t ht).project?_eq_some hr
  have parts : lefts.mapM (fun row => do
        let key ← row.project? l
        return ((MultiIndex.build rights r).find key).map fun found => row ++ found)
      = some (lefts.map fun row => (rights.filter (agree (l.zip r) row)).map (List.append row)) := by
    refine mapM_eq_some_map fun a ha => ?_
    rw [(hls a ha).project?_eq_some hl, Option.bind_eq_bind, Option.bind_some, MultiIndex.find_build]
    refine congrArg (fun found : List Tuple => some (found.map (List.append a))) ?_
    refine List.filter_congr fun b hb => ?_
    rw [Bool.eq_iff_iff, decide_eq_true_iff]
    exact (agree_zip_iff hn (fun c hc => (hls a ha).length_eq ▸ hl c hc)
      fun c hc => (hrs b hb).length_eq ▸ hr c hc).symm
  rw [byIndex?, index, Option.bind_eq_bind, Option.bind_some, parts, nested, List.flatMap_def]
  rfl

end Join

end Relata
