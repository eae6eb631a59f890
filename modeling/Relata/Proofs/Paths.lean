import Mathlib.Data.List.Induction
import Relata.Store.FileTree
/-!
# Paths and their parts

A path is the same thing as its parts, which have no slash (`ofParts_parts`, `parts_ofParts`). The parts of a
path under a root are those of the root's stem followed by its own (`parts_join`), and it starts where the
root does.
-/

namespace Relata.Path

/-! ## Parts -/

theorem parts_eq (path : String) : parts path = (path.toList.splitOn '/').map String.ofList := rfl

theorem ofParts_eq (ps : List String) : ofParts ps = String.ofList (['/'].intercalate (ps.map String.toList)) := rfl

theorem ofParts_parts (path : String) : ofParts (parts path) = path := by
  have same : String.toList ∘ String.ofList = id := by
    funext cs
    exact String.toList_ofList
  rw [ofParts_eq, parts_eq, List.map_map, same, List.map_id, List.intercalate_splitOn, String.ofList_toList]

theorem parts_inj {path path' : String} : parts path = parts path' ↔ path = path' := by
  constructor
  · intro h
    rw [← ofParts_parts path, h, ofParts_parts]
  · rintro rfl
    rfl

theorem parts_ne_nil (path : String) : parts path ≠ [] := by simp [parts]

/-- Parts that a path can have. -/
def Unslashed (ps : List String) : Prop := ∀ part ∈ ps, '/' ∉ part.toList

theorem unslashed_append {ps qs : List String} : Unslashed (ps ++ qs) ↔ Unslashed ps ∧ Unslashed qs :=
  List.forall_mem_append

theorem parts_ofParts {ps : List String} (hn : ps ≠ []) (hs : Unslashed ps) : parts (ofParts ps) = ps := by
  have pieces : ∀ cs ∈ ps.map String.toList, '/' ∉ cs := by simpa [Unslashed] using hs
  have same : String.ofList ∘ String.toList = id := by
    funext s
    exact String.ofList_toList
  rw [parts_eq, ofParts_eq, String.toList_ofList, List.splitOn_intercalate _ pieces (by simpa using hn),
    List.map_map, same, List.map_id]

theorem unslashed_parts (path : String) : Unslashed (parts path) := by
  have all : ∀ cs : List Char, ∀ piece ∈ cs.splitOn '/', '/' ∉ piece := by
    intro cs
    induction cs with
    | nil => simp
    | cons c cs ih =>
      rw [List.splitOn_cons_eq_if_modifyHead]
      obtain ⟨piece, rest, he⟩ := List.exists_cons_of_ne_nil (List.splitOn_ne_nil '/' cs)
      rw [he] at ih ⊢
      by_cases hc : c = '/'
      · simpa [hc] using ih
      · simpa [hc, Ne.symm hc] using ih
  intro part hp
  rw [parts_eq] at hp
  obtain ⟨piece, hm, rfl⟩ := List.mem_map.mp hp
  rw [String.toList_ofList]
  exact all _ piece hm

theorem ofParts_append {ps qs : List String} (hp : ps ≠ []) (hq : qs ≠ []) :
    ofParts (ps ++ qs) = ofParts ps ++ "/" ++ ofParts qs := by
  rw [← String.toList_inj]
  induction ps with
  | nil => exact absurd rfl hp
  | cons p ps ih =>
    cases ps with
    | nil =>
      obtain ⟨q, qs, rfl⟩ := List.exists_cons_of_ne_nil hq
      simp [ofParts_eq, List.intercalate_cons_cons]
    | cons p' ps =>
      have := ih (by simp)
      simp [ofParts_eq, List.intercalate_cons_cons] at this ⊢
      exact this

/-- A path with parts to spare begins with the path of the others. -/
theorem exists_ofParts_append (ps qs : List String) : ∃ rest, ofParts (ps ++ qs) = ofParts ps ++ rest := by
  by_cases hp : ps = []
  · exact ⟨ofParts qs, by simp [hp, ofParts_eq]⟩
  · by_cases hq : qs = []
    · exact ⟨"", by simp [hq]⟩
    · exact ⟨"/" ++ ofParts qs, by rw [ofParts_append hp hq, String.append_assoc]⟩

/-! ## Names -/

/-- Whether a part names an entry of a directory. -/
def IsName (part : String) : Prop :=
  part ≠ "" ∧ part ≠ "." ∧ part ≠ ".." ∧ part.utf8ByteSize ≤ maxName

instance (part : String) : Decidable (IsName part) := by
  unfold IsName
  infer_instance

theorem IsName.not_isIdle {part : String} (h : IsName part) : isIdle part = false := by
  simp [isIdle, h.1, h.2.1]

theorem settled_append_of_not_isIdle (ps : List String) {part : String} (h : isIdle part = false) :
    settled (ps ++ [part]) = ps ++ [part] := by
  simp [settled, h]

theorem settled_append_of_isIdle (ps : List String) {part : String} (h : isIdle part = true) :
    settled (ps ++ [part]) = settled ps := by
  simp [settled, h]

theorem parent_append (ps : List String) {part : String} (h : isIdle part = false) :
    parent (ps ++ [part]) = settled ps := by
  rw [parent, settled_append_of_not_isIdle ps h, List.dropLast_concat]

/-- What settling leaves ends with a part that moves. -/
theorem settled_cases (ps : List String) :
    ∃ idle, ps = settled ps ++ idle ∧ (∀ part ∈ idle, isIdle part = true)
      ∧ (settled ps = [] ∨ ∃ front part, settled ps = front ++ [part] ∧ isIdle part = false) := by
  induction ps using List.reverseRecOn with
  | nil => exact ⟨[], rfl, nofun, .inl rfl⟩
  | append_singleton ps part ih =>
    cases hp : isIdle part with
    | true =>
      obtain ⟨idle, he, hi, hl⟩ := ih
      rw [settled_append_of_isIdle ps hp]
      refine ⟨idle ++ [part], ?_, ?_, hl⟩
      · rw [← List.append_assoc, ← he]
      · simpa [or_imp, forall_and, hp] using hi
    | false =>
      rw [settled_append_of_not_isIdle ps hp]
      exact ⟨[], by simp, nofun, .inr ⟨ps, part, rfl, hp⟩⟩

/-! ## Paths that start at the top -/

theorem isAbsolute_iff (path : String) :
    isAbsolute path = true ↔ (parts path).head? = some "" ∧ parts path ≠ [""] := by
  rw [isAbsolute, parts_eq]
  cases path.toList with
  | nil => simp
  | cons c cs =>
    obtain ⟨piece, rest, he⟩ := List.exists_cons_of_ne_nil (List.splitOn_ne_nil '/' cs)
    rw [List.splitOn_cons_eq_if_modifyHead, he]
    by_cases hc : c = '/'
    · simp [hc]
    · simp [hc, ← String.toList_inj]

/-- Leaving out idle parts at the end does not change where a path starts. -/
theorem isAbsolute_ofParts_settled (path : String) (h : settled (parts path) ≠ []) :
    isAbsolute (ofParts (settled (parts path))) = isAbsolute path := by
  obtain ⟨idle, he, -, hl⟩ := settled_cases (parts path)
  have unslashed : Unslashed (settled (parts path)) := (unslashed_append.mp (he ▸ unslashed_parts path)).1
  rw [Bool.eq_iff_iff, isAbsolute_iff, isAbsolute_iff, parts_ofParts h unslashed]
  generalize settled (parts path) = ps at h he hl
  obtain ⟨front, part, rfl, hp⟩ := hl.resolve_left h
  rw [he]
  have moves : part ≠ "" := by
    rintro rfl
    cases hp
  cases front with
  | nil => simp [moves]
  | cons first front => simp

/-! ## Paths under a root -/

/-- The parts of a root as they stand before those of a path under it. A slash at its end adds no part. -/
def stem (root : String) : List String :=
  if root = "" || root.toList.getLast? == some '/' then (parts root).dropLast else parts root

theorem parts_append_slash (s rest : String) : parts (s ++ "/" ++ rest) = parts s ++ parts rest := by
  have slash : (s ++ "/" ++ rest).toList = s.toList ++ '/' :: rest.toList := by simp
  rw [parts_eq, slash, List.splitOn_append_cons_self, List.map_append, parts_eq, parts_eq]

/-- A root is no text at all, or it ends with a slash, or another slash has to follow it. -/
theorem stem_cases (root : String) :
    (root = "" ∧ stem root = []) ∨ (∃ front, root = front ++ "/" ∧ stem root = parts front)
      ∨ (root = "" || root.toList.getLast? == some '/') = false ∧ stem root = parts root := by
  rw [stem]
  by_cases hr : root = ""
  · exact .inl ⟨hr, by rw [hr]; rfl⟩
  · by_cases hl : root.toList.getLast? = some '/'
    · obtain ⟨front, hf⟩ := List.getLast?_eq_some_iff.mp hl
      have split : root = String.ofList front ++ "/" ++ "" := by simp [← String.toList_inj, hf]
      have last : parts root = parts (String.ofList front) ++ [""] := by
        rw [split, parts_append_slash]
        rfl
      refine .inr (.inl ⟨String.ofList front, by simpa using split, ?_⟩)
      rw [if_pos (by simp [hl]), last, List.dropLast_concat]
    · have open' : (root = "" || root.toList.getLast? == some '/') = false := by simp [hr, hl]
      exact .inr (.inr ⟨open', if_neg (by rw [open']; simp)⟩)

/-- A root has the parts of its stem, and perhaps an empty one. -/
theorem parts_eq_stem (root : String) : parts root = stem root ∨ parts root = stem root ++ [""] := by
  rcases stem_cases root with ⟨hr, hs⟩ | ⟨front, hr, hs⟩ | ⟨-, hs⟩
  · exact .inr (by rw [hs, hr]; rfl)
  · have split := parts_append_slash front ""
    rw [String.append_empty] at split
    exact .inr (by rw [hs, hr, split]; rfl)
  · exact .inl hs.symm

theorem settled_stem (root : String) : settled (stem root) = settled (parts root) := by
  rcases parts_eq_stem root with h | h
  · rw [h]
  · rw [h, settled_append_of_isIdle _ rfl]

theorem parts_join {path : String} (root : String) (h : isAbsolute path = false) :
    parts (join root path) = stem root ++ parts path := by
  rw [join, h, if_neg (by simp)]
  rcases stem_cases root with ⟨hr, hs⟩ | ⟨front, hr, hs⟩ | ⟨hr, hs⟩
  · rw [hs, hr]
    simp
  · rw [if_pos (by simp [hr]), hs, hr, parts_append_slash]
  · rw [hr, if_neg (by simp), hs, parts_append_slash]

/-- A path under a root is at least as long as both together. -/
theorem le_size_join {path : String} (root : String) (h : isAbsolute path = false) :
    root.utf8ByteSize + path.utf8ByteSize ≤ (join root path).utf8ByteSize := by
  rw [join, h, if_neg (by simp)]
  split
  · exact Nat.le_of_eq String.utf8ByteSize_append.symm
  · rw [String.utf8ByteSize_append, String.utf8ByteSize_append]
    omega

theorem isAbsolute_join {path : String} (root : String) (h : isAbsolute path = false) :
    isAbsolute (join root path) = isAbsolute root := by
  rw [join, h, if_neg (by simp)]
  by_cases hr : root = ""
  · subst hr
    simpa [isAbsolute] using h
  · have first : root.toList ≠ [] := by simpa using hr
    obtain ⟨c, cs, he⟩ := List.exists_cons_of_ne_nil first
    split <;> simp [isAbsolute, he]

/-! ## Paths that can be walked -/

theorem check_eq_ok_iff {path : String} :
    check path = .ok () ↔ Char.ofNat 0 ∉ path.toList ∧ path ≠ "" ∧ path.utf8ByteSize ≤ maxPath := by
  rw [check]
  split
  · next h => simpa using fun hn => absurd (List.contains_iff_mem.mp h) hn
  · next h =>
    split
    · next he => simp [he]
    · next he =>
      split
      · next hl =>
        simp only [reduceCtorEq, false_iff]
        omega
      · next hl =>
        simp only [List.contains_iff_mem] at h
        simpa [h, he] using hl

/-- A path that can be walked can be left off after any part that moves. -/
theorem check_ofParts {ps : List String} (qs : List String) (hc : check (ofParts (ps ++ qs)) = .ok ()) (hn : ofParts ps ≠ "") :
    check (ofParts ps) = .ok () := by
  obtain ⟨rest, hr⟩ := exists_ofParts_append ps qs
  rw [check_eq_ok_iff, hr, String.toList_append, List.mem_append, not_or, String.utf8ByteSize_append] at hc
  exact check_eq_ok_iff.mpr ⟨hc.1.1, hn, by omega⟩

/-! ## Paths that fit under a root -/

/-- Names that can be walked under a root. -/
structure Fits (root path : String) : Prop where
  check_eq : check (join root path) = .ok ()
  names : ∀ part ∈ parts path, IsName part

instance (root path : String) : Decidable (Fits root path) :=
  decidable_of_iff (check (join root path) = .ok () ∧ ∀ part ∈ parts path, IsName part)
    ⟨fun h => ⟨h.1, h.2⟩, fun h => ⟨h.1, h.2⟩⟩

/-- Whether a path is that of a directory on the way of another. -/
def Above (path path' : String) : Prop := parts path <+: parts path' ∧ path ≠ path'

instance (path path' : String) : Decidable (Above path path') := by
  unfold Above
  infer_instance

section Fits

variable {root path : String}

theorem isAbsolute_of_names (h : ∀ part ∈ parts path, IsName part) : isAbsolute path = false := by
  rw [← Bool.not_eq_true, isAbsolute_iff]
  rintro ⟨hh, -⟩
  exact (h "" (List.mem_of_head? hh)).1 rfl

theorem ofParts_stem_append (root : String) (hp : ∀ part ∈ parts path, IsName part) :
    ofParts (stem root ++ parts path) = join root path := by
  rw [← parts_join root (isAbsolute_of_names hp), ofParts_parts]

/-- The directories on the way of a path fit as well. -/
theorem Fits.of_prefix (h : Fits root path) {ms : List String} (hp : ms <+: parts path) (hm : ms ≠ []) :
    parts (ofParts ms) = ms ∧ Fits root (ofParts ms) := by
  obtain ⟨rest, hr⟩ := hp
  have same : parts (ofParts ms) = ms := parts_ofParts hm (unslashed_append.mp (hr ▸ unslashed_parts path)).1
  have names : ∀ part ∈ parts (ofParts ms), IsName part := by
    intro part hp
    rw [same] at hp
    exact h.names part (hr ▸ List.mem_append_left rest hp)
  have along := ofParts_stem_append root names
  refine ⟨same, ?_, names⟩
  rw [← along]
  apply check_ofParts rest
  · rw [same, List.append_assoc, hr, ofParts_stem_append root h.names]
    exact h.check_eq
  · rw [along]
    intro he
    obtain ⟨name, hn⟩ := List.exists_mem_of_ne_nil ms hm
    have whole := parts_join root (isAbsolute_of_names names)
    rw [he, same] at whole
    have only : name ∈ parts "" := whole ▸ List.mem_append_right _ hn
    exact (names name (same.symm ▸ hn)).1 (List.mem_singleton.mp only)

end Fits

end Relata.Path
