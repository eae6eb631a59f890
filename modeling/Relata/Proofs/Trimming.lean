import Mathlib.Data.List.TakeWhile
import Relata.Text.Blank
/-!
# Trimmed texts

A list is cut in only one way into a front of elements with a property and a rest that does not begin with one
(`span_iff`). Trimming cuts white space off like this at both ends, so a text is trimmed to another one exactly when
that one has no white space at its ends and stands in the text between white space (`trim_eq_iff`).
-/

namespace Relata

/-- What is taken and what is left while a property lasts. -/
theorem span_iff {α : Type} {p : α → Bool} {l front rest : List α} :
    l.takeWhile p = front ∧ l.dropWhile p = rest
      ↔ l = front ++ rest ∧ (∀ a ∈ front, p a = true) ∧ ∀ a ∈ rest.head?, p a = false := by
  constructor
  · intro h
    obtain ⟨rfl, rfl⟩ := h
    refine ⟨List.takeWhile_append_dropWhile.symm, fun a ha => List.mem_takeWhile_imp ha, ?_⟩
    intro a ha
    have stop := List.head?_dropWhile_not p l
    rw [Option.mem_def.mp ha] at stop
    exact stop
  · intro h
    obtain ⟨rfl, hf, hr⟩ := h
    rw [List.takeWhile_append_of_pos hf, List.dropWhile_append_of_pos hf]
    cases rest with
    | nil => simp
    | cons a rest =>
      have stop : p a = false := hr a rfl
      simp [stop]

theorem dropWhile_eq_iff {α : Type} {p : α → Bool} {l rest : List α} : l.dropWhile p = rest
    ↔ ∃ front, l = front ++ rest ∧ (∀ a ∈ front, p a = true) ∧ ∀ a ∈ rest.head?, p a = false := by
  constructor
  · intro h
    exact ⟨l.takeWhile p, span_iff.mp ⟨rfl, h⟩⟩
  · intro h
    obtain ⟨front, parts⟩ := h
    exact (span_iff.mpr parts).2

namespace Text

/-- Nothing but white space. -/
def AllBlank (s : List Char) : Prop := ∀ c ∈ s, isBlank c = true

/-- No white space at either end. -/
structure Trimmed (s : List Char) : Prop where
  head : ∀ c ∈ s.head?, isBlank c = false
  last : ∀ c ∈ s.getLast?, isBlank c = false

theorem Trimmed.of_forall {s : List Char} (h : ∀ c ∈ s, isBlank c = false) : Trimmed s where
  head c hc := h c (List.mem_of_head? hc)
  last c hc := h c (List.mem_of_getLast? hc)

theorem AllBlank.reverse {s : List Char} (h : AllBlank s) : AllBlank s.reverse :=
  fun c hc => h c (List.mem_reverse.mp hc)

/-- A text is trimmed to the part of it without white space at its ends that stands between white space. -/
theorem trim_eq_iff {s t : List Char} :
    trim s = t ↔ Trimmed t ∧ ∃ before after, AllBlank before ∧ AllBlank after ∧ s = before ++ t ++ after := by
  rw [trim, List.reverse_eq_iff, dropWhile_eq_iff]
  constructor
  · intro h
    obtain ⟨back, hm, after, ends⟩ := h
    obtain ⟨front, hs, before, starts⟩ := dropWhile_eq_iff.mp (rfl : s.dropWhile isBlank = _)
    -- What is cut off at the end was found in reverse.
    rw [List.reverse_eq_iff, List.reverse_append, List.reverse_reverse] at hm
    rw [hm] at hs starts
    rw [List.head?_reverse] at ends
    refine ⟨⟨?_, ends⟩, front, back.reverse, before, AllBlank.reverse after, ?_⟩
    · intro c hc
      apply starts
      rw [List.head?_append, Option.mem_def.mp hc]
      rfl
    · rwa [List.append_assoc]
  · intro h
    obtain ⟨trimmed, before, after, hb, ha, rfl⟩ := h
    rw [List.append_assoc, List.dropWhile_append_of_pos hb]
    cases t with
    | nil =>
      rw [List.nil_append, List.dropWhile_eq_nil_iff.mpr ha]
      exact ⟨[], rfl, fun c hc => (nomatch hc), trimmed.head⟩
    | cons c t =>
      have first : isBlank c = false := trimmed.head c rfl
      rw [List.cons_append, List.dropWhile_cons_of_neg (by simp [first]), ← List.cons_append, List.reverse_append]
      refine ⟨after.reverse, rfl, ha.reverse, ?_⟩
      rw [List.head?_reverse]
      exact trimmed.last

theorem Trimmed.trim_eq {s : List Char} (h : Trimmed s) : trim s = s :=
  trim_eq_iff.mpr ⟨h, [], [], fun _ hc => (nomatch hc), fun _ hc => (nomatch hc), (List.append_nil s).symm⟩

end Text

end Relata
