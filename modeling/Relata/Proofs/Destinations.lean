import Relata.Proofs.FileTrees
/-!
# Destinations

Where a path leads is known from its parts, since nothing is linked: a name leads into a directory, two dots lead to
the directory around (`walk_eq_destination`). So it can be said of a path that it turns back at locations of some
kind, or that it passes them, whatever file tree it is walked in.
-/

namespace Relata

/-! ## Parts and locations -/

namespace Path

/-- The location that a part leads to. -/
def follow (l : Location) (part : String) : Location :=
  if isIdle part then l else if part = ".." then l.dropLast else l ++ [part]

/-- The location that the parts of a path lead to. -/
def destination (l : Location) (parts : List String) : Location := parts.foldl follow l

theorem follow_idle {part : String} (h : isIdle part = true) (l : Location) : follow l part = l := if_pos h

theorem destination_append (l : Location) (ps qs : List String) :
    destination l (ps ++ qs) = destination (destination l ps) qs := List.foldl_append

theorem destination_idle {idle : List String} (h : ∀ part ∈ idle, isIdle part = true) (l : Location) :
    destination l idle = l := by
  induction idle with
  | nil => rfl
  | cons part idle ih =>
    rw [List.forall_mem_cons] at h
    rw [destination, List.foldl_cons, follow_idle h.1]
    exact ih h.2

section Kinds

variable (kind : Location → Prop)

/-- Whether parts go up from a location of a kind. -/
def TurnsBack : Location → List String → Prop
  | _, [] => False
  | l, part :: rest => (part = ".." ∧ kind l) ∨ TurnsBack (follow l part) rest

/-- Whether parts lead to a location of a kind, or through one. -/
def Passes : Location → List String → Prop
  | _, [] => False
  | l, part :: rest => kind (follow l part) ∨ Passes (follow l part) rest

instance [DecidablePred kind] (l : Location) (ps : List String) : Decidable (TurnsBack kind l ps) := by
  induction ps generalizing l with
  | nil => exact .isFalse id
  | cons part ps ih => exact instDecidableOr

instance [DecidablePred kind] (l : Location) (ps : List String) : Decidable (Passes kind l ps) := by
  induction ps generalizing l with
  | nil => exact .isFalse id
  | cons part ps ih => exact instDecidableOr

variable {kind} {l : Location} {ps qs : List String}

theorem TurnsBack.append (h : TurnsBack kind l ps) (qs : List String) : TurnsBack kind l (ps ++ qs) := by
  induction ps generalizing l with
  | nil => exact h.elim
  | cons part ps ih => exact h.imp id ih

theorem TurnsBack.extend (hp : ps <+: qs) (h : TurnsBack kind l ps) : TurnsBack kind l qs := by
  obtain ⟨rest, rfl⟩ := hp
  exact h.append rest

theorem passes_append : Passes kind l (ps ++ qs) ↔ Passes kind l ps ∨ Passes kind (destination l ps) qs := by
  induction ps generalizing l with
  | nil => simp [Passes, destination]
  | cons part ps ih =>
    rw [List.cons_append, Passes, Passes, ih, or_assoc]
    rfl

theorem Passes.extend (hp : ps <+: qs) (h : Passes kind l ps) : Passes kind l qs := by
  obtain ⟨rest, rfl⟩ := hp
  exact passes_append.mpr (.inl h)

/-- Idle parts lead nowhere else. -/
theorem Passes.of_idle (h : Passes kind l ps) (hi : ∀ part ∈ ps, isIdle part = true) : kind l := by
  induction ps with
  | nil => exact h.elim
  | cons part ps ih =>
    rw [List.forall_mem_cons] at hi
    rw [Passes, follow_idle hi.1] at h
    exact h.elim id fun h => ih h hi.2

end Kinds

end Path

namespace FileTree

variable {t t' : FileTree} {l r : Location} {ps : List String}

open Relata.Path (follow destination TurnsBack Passes)

theorem enter_eq_follow {part : String} (h : t.enter l part = .ok r) : r = follow l part := by
  rw [enter] at h
  rw [follow]
  split at h
  · cases h
  · split at h
    · next hi => rw [if_pos hi, Except.ok.inj h]
    · next hi =>
      rw [if_neg hi]
      split at h
      · next hu => rw [if_pos hu, Except.ok.inj h]
      · next hu =>
        rw [if_neg hu]
        split at h
        · cases h
        · split at h
          · cases h
          · exact (Except.ok.inj h).symm

/-- A part that moves down leads to an entry of the directory. -/
theorem enter_part {part : String} (hd : t.isDirectory l = true) (hi : ¬Path.isIdle part = true) (hu : part ≠ "..") :
    t.enter l part = if part.utf8ByteSize > Path.maxName then .error .nameTooLong
      else if (t.node? (l ++ [part])).isNone then .error .noEntry else .ok (l ++ [part]) := by
  rw [enter, hd, if_neg (by simp), if_neg hi, if_neg hu]

theorem enter_ne_notDirectory (hd : t.isDirectory l = true) (part : String) : t.enter l part ≠ .error .notDirectory := by
  rw [enter, hd, if_neg (by simp)]
  split_ifs <;> simp

theorem walk_eq_destination (h : t.walk l ps = .ok r) : r = destination l ps := by
  induction ps generalizing l with
  | nil => exact (Except.ok.inj h).symm
  | cons part ps ih =>
    rw [walk, List.foldlM_cons] at h
    obtain ⟨q, he, h⟩ := exists_of_bind_eq_ok h
    rw [enter_eq_follow he] at h
    exact ih h

theorem walk_idle (hd : t.isDirectory l = true) {idle : List String} (hi : ∀ part ∈ idle, Path.isIdle part = true) :
    t.walk l idle = .ok l := by
  induction idle with
  | nil => rfl
  | cons part idle ih =>
    rw [List.forall_mem_cons] at hi
    rw [walk, List.foldlM_cons, enter_idle hi.1, hd]
    exact ih hi.2

/-- Idle parts stay in a directory, and only there. -/
theorem walk_idle_cases (l : Location) {idle : List String} (hi : ∀ part ∈ idle, Path.isIdle part = true) :
    t.walk l idle = .ok l ∨ t.walk l idle = .error .notDirectory := by
  cases hd : t.isDirectory l with
  | true => exact .inl (walk_idle hd hi)
  | false =>
    cases idle with
    | nil => exact .inl rfl
    | cons part idle =>
      rw [walk, List.foldlM_cons, enter_idle (hi part (by simp)), hd]
      exact .inr rfl

/-- A walk ends somewhere, or because a directory, an entry or a short name is missed. -/
theorem walk_eq_error {fault : PathFault} (h : t.walk l ps = .error fault) :
    fault = .notDirectory ∨ fault = .nameTooLong ∨ fault = .noEntry := by
  induction ps generalizing l with
  | nil => cases h
  | cons part ps ih =>
    rw [walk, List.foldlM_cons] at h
    cases he : t.enter l part with
    | ok q =>
      rw [he] at h
      exact ih h
    | error cause =>
      rw [he] at h
      cases h
      rw [enter] at he
      split at he
      · exact .inl (Except.error.inj he).symm
      · split at he
        · cases he
        · split at he
          · cases he
          · split at he
            · exact .inr (.inl (Except.error.inj he).symm)
            · split at he
              · exact .inr (.inr (Except.error.inj he).symm)
              · cases he

theorem isSome_of_isDirectory (hd : t.isDirectory l = true) : (t.node? l).isSome = true := by
  rw [isDirectory_iff.mp hd]
  rfl

/-- Around everything is a directory. Around the top is the top itself. -/
theorem WellFormed.isDirectory_dropLast (ht : t.WellFormed) (hl : (t.node? l).isSome = true) :
    t.isDirectory l.dropLast = true := by
  induction l using List.reverseRecOn with
  | nil => rfl
  | append_singleton l name =>
    rw [List.dropLast_concat]
    exact ht.inside l name hl

theorem isSome_of_enter (ht : t.WellFormed) {part : String} (h : t.enter l part = .ok r) : (t.node? r).isSome = true := by
  obtain ⟨hd, how⟩ := enter_cases h
  rw [enter_eq_follow h, follow]
  by_cases hi : Path.isIdle part = true
  · rw [if_pos hi]
    exact isSome_of_isDirectory hd
  · rw [if_neg hi]
    by_cases hu : part = ".."
    · rw [if_pos hu]
      exact isSome_of_isDirectory (ht.isDirectory_dropLast (isSome_of_isDirectory hd))
    · rw [if_neg hu]
      exact ((how.resolve_left hi).resolve_left hu).2

theorem isSome_walk (ht : t.WellFormed) (hl : (t.node? l).isSome = true) (h : t.walk l ps = .ok r) :
    (t.node? r).isSome = true := by
  induction ps generalizing l with
  | nil => rwa [← Except.ok.inj h]
  | cons part ps ih =>
    rw [walk, List.foldlM_cons] at h
    obtain ⟨q, he, h⟩ := exists_of_bind_eq_ok h
    exact ih (isSome_of_enter ht he) h

end FileTree

end Relata
