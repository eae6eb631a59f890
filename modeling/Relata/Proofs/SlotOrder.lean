import Relata.Proofs.FileCatalogs
/-!
# The order of slots

A storage lists paths in ascending order, and a catalog takes the ending off each of them. That can turn two
names around of which one begins the other: the ending of the shorter one has been compared with what the longer
one has in its place. The names ascend exactly where no two are turned around (`PathOrdered.ascends_iff`). It does
not matter in which storage the slots are (`slots_in_path_order`).
-/

namespace Relata

/-! ## Texts with one ending -/

namespace Text

/-- A common ending decides an order only where one of the texts begins the other. -/
theorem lt_or_of_append_lt {s t ending : List Char} (h : s ++ ending < t ++ ending) :
    s < t ∨ ∃ more, more ≠ [] ∧ s = t ++ more ∧ more ++ ending < ending := by
  induction s generalizing t with
  | nil =>
    cases t with
    | nil => exact absurd h (List.lt_irrefl _)
    | cons d t => exact .inl (List.nil_lt_cons d t)
  | cons c s ih =>
    cases t with
    | nil => exact .inr ⟨c :: s, by simp, rfl, h⟩
    | cons d t =>
      rw [List.cons_append, List.cons_append, List.cons_lt_cons_iff] at h
      rw [List.cons_lt_cons_iff]
      -- Equal first characters are passed over, and different ones decide.
      obtain hc | ⟨he, h⟩ := h
      · exact .inl (.inl hc)
      · obtain hs | ⟨more, hn, hm, hlt⟩ := ih h
        · exact .inl (.inr ⟨he, hs⟩)
        · exact .inr ⟨more, hn, by rw [he, hm, List.cons_append], hlt⟩

theorem compare_eq_lt {s t : String} : compare s t = .lt ↔ s < t := compareOfLessAndEq_eq_lt

theorem lt_of_isLE {s t : String} (h : (compare s t).isLE = true) (hn : s ≠ t) : s < t := by
  cases hc : compare s t with
  | lt => exact compare_eq_lt.mp hc
  | eq => exact absurd (Std.LawfulEqOrd.eq_of_compare hc) hn
  | gt =>
    rw [hc] at h
    cases h

end Text

/-! ## What writing and deleting do to the tree -/

namespace Files

/-- A write adds directories, and puts a file in a directory after that unless it fails. -/
theorem write_cases (f : Files) (path : String) (bytes : Bytes) :
    ∃ made, FileTree.Adds (fun _ => True) f.tree made
      ∧ ((f.write path bytes).2.tree = made ∨ ∃ q name, made.isDirectory q = true ∧ made.isDirectory (q ++ [name]) = false
        ∧ (f.write path bytes).2.tree = made.put (q ++ [name]) (.file bytes)) := by
  have adds := f.tree.ensureDirectories_adds f.base (Path.parent (Path.parts (f.resolve path)))
  refine ⟨_, adds, ?_⟩
  rw [write]
  split
  · next cause made he =>
    rw [he]
    exact .inl rfl
  · next made he =>
    rw [he]
    split
    · exact .inl rfl
    · next tree hc =>
      obtain ⟨q, name, hd, hf, rfl⟩ := FileTree.createFile_eq_ok hc
      exact .inr ⟨q, name, hd, hf, rfl⟩

/-- A delete takes away what is no directory, or nothing. -/
theorem delete_cases (f : Files) (path : String) :
    (f.delete path).2.tree = f.tree
      ∨ ∃ q, q ≠ [] ∧ f.tree.isDirectory q = false ∧ (f.delete path).2.tree = ⟨Entries.erase q f.tree.nodes⟩ := by
  rw [delete]
  split
  · exact .inl rfl
  · split
    · exact .inl rfl
    · next tree hr =>
      obtain ⟨q, hf, rfl⟩ := FileTree.removeFile_eq_ok hr
      refine .inr ⟨q, ?_, hf, rfl⟩
      rintro rfl
      cases hf

theorem wellFormed_write (f : Files) (path : String) (bytes : Bytes) (h : f.tree.WellFormed) :
    (f.write path bytes).2.tree.WellFormed := by
  obtain ⟨made, adds, he | ⟨q, name, hd, hf, he⟩⟩ := f.write_cases path bytes
  · rw [he]
    exact adds.wellFormed h
  · rw [he]
    apply (adds.wellFormed h).put hd
    intro taken
    rw [hf] at taken
    cases taken

theorem wellFormed_delete (f : Files) (path : String) (h : f.tree.WellFormed) :
    (f.delete path).2.tree.WellFormed := by
  obtain he | ⟨q, below, hf, he⟩ := f.delete_cases path
  · rwa [he]
  · rw [he]
    exact h.erase below hf

end Files

namespace Catalog

/-! ## Names in the order of their paths -/

/-- Each name comes once, and its path comes before those of the names after it. -/
def PathOrdered (names : List String) : Prop :=
  names.Pairwise fun name other => name ++ ending < other ++ ending

/-- A name goes on after another one, and its path comes before the path of the other all the same. -/
def TurnedAround (name longer : String) : Prop :=
  ∃ more, more ≠ "" ∧ longer = name ++ more ∧ more ++ ending < ending

theorem lt_or_turnedAround {name other : String} (h : name ++ ending < other ++ ending) :
    name < other ∨ TurnedAround other name := by
  rw [String.lt_iff, String.toList_append, String.toList_append] at h
  obtain hlt | ⟨more, hn, he, hm⟩ := Text.lt_or_of_append_lt h
  · exact .inl (String.lt_iff.mpr hlt)
  · refine .inr ⟨String.ofList more, ?_, ?_, ?_⟩
    · intro hs
      exact hn (by rw [← String.toList_ofList (l := more), hs]; rfl)
    · rw [← String.toList_inj, String.toList_append, String.toList_ofList, he]
    · rw [String.lt_iff, String.toList_append, String.toList_ofList]
      exact hm

/-- A name that goes on after another one comes after it, and its path comes before. -/
theorem TurnedAround.lt {name longer : String} (h : TurnedAround name longer) :
    name < longer ∧ longer ++ ending < name ++ ending := by
  obtain ⟨more, hn, rfl, hm⟩ := h
  rw [String.lt_iff] at hm
  rw [String.lt_iff, String.lt_iff]
  simp only [String.toList_append, List.append_assoc] at hm ⊢
  refine ⟨?_, List.append_left_lt hm⟩
  have longer : [] < more.toList := by
    cases hl : more.toList with
    | nil => exact absurd (String.toList_inj.mp hl) hn
    | cons c rest => exact List.nil_lt_cons c rest
  calc name.toList = name.toList ++ [] := (List.append_nil _).symm
    _ < name.toList ++ more.toList := List.append_left_lt longer

/-- The names themselves ascend where the ending turns none of them around, and only there. -/
theorem PathOrdered.ascends_iff {names : List String} (h : PathOrdered names) :
    names.Pairwise (· < ·) ↔ ∀ name ∈ names, ∀ longer ∈ names, ¬TurnedAround name longer := by
  constructor
  · intro ascends name hm longer hl turned
    obtain ⟨hlt, hpath⟩ := turned.lt
    obtain ⟨i, hi, rfl⟩ := List.getElem_of_mem hm
    obtain ⟨j, hj, rfl⟩ := List.getElem_of_mem hl
    -- Whichever of the two comes first, the order of the names or that of the paths is against it.
    rcases Nat.lt_trichotomy i j with hij | rfl | hij
    · exact String.lt_asymm hpath (List.pairwise_iff_getElem.mp h i j hi hj hij)
    · exact String.lt_irrefl _ hlt
    · exact String.lt_asymm hlt (List.pairwise_iff_getElem.mp ascends j i hj hi hij)
  · intro hturned
    apply h.imp_of_mem
    intro name other hn ho hpath
    exact (lt_or_turnedAround hpath).resolve_right (hturned other ho name hn)

/-! ## What calls keep -/

section Calls

variable {σ : Type} [Storage σ] {P : σ → Prop}
  (hw : ∀ s path bytes, P s → P (Storage.write s path bytes).2)
  (hd : ∀ s path, P s → P (Storage.delete s path).2)
include hw hd

/-- What writing and deleting keep of a storage, every call keeps. -/
theorem call_keeps {c : Catalog σ} (h : P c.storage) (call : Call) : P (c.call call).2.storage := by
  cases call with
  | save t =>
    show P (c.save t).2.storage
    rw [save]
    split
    · exact h
    · exact h
    · exact hw _ _ _ h
  | remove name =>
    show P (c.remove name).2.storage
    rw [remove]
    split
    · exact h
    · exact hd _ _ h
  | load name => exact h
  | contains name => exact h
  | slots => exact h

theorem after_keeps {c : Catalog σ} (h : P c.storage) (calls : List Call) : P (c.after calls).storage := by
  induction calls generalizing c with
  | nil => exact h
  | cons call rest ih => exact ih (call_keeps hw hd h call)

end Calls

/-! ## Slots in memory -/

theorem pathOrdered_of_ascending {c : Catalog Memory} (h : Entries.Ascending c.storage.entries) :
    PathOrdered c.slots := by
  rw [slots, list_eq_keys]
  apply List.Pairwise.filterMap _ _ h
  intro path path' hlt name hn name' hn'
  rw [← eq_of_slotName? hn, ← eq_of_slotName? hn']
  exact Text.compare_eq_lt.mp hlt

theorem pathOrdered_after_inMemory (codec : Codec) (calls : List Call) :
    PathOrdered (after (inMemory codec) calls).slots := by
  apply pathOrdered_of_ascending
  apply after_keeps (P := fun m : Memory => Entries.Ascending m.entries)
  · intro m path bytes h
    exact Entries.ascending_insert path bytes h
  · intro m path h
    exact Entries.ascending_erase path h
  · exact List.Pairwise.nil

/-! ## Slots in files -/

theorem notMem_of_slotName? {path name : String} (h : slotName? path = some name) : '/' ∉ path.toList := by
  intro hm
  simp [slotName?, hm] at h

/-- Only a file right below the root is a slot. -/
theorem eq_singleton_of_slotName? {ps : List String} {name : String}
    (h : slotName? (Path.ofParts ps) = some name) : ps = [name ++ ending] := by
  have single : ∀ p, Path.ofParts [p] = p := by
    intro p
    rw [Path.ofParts_eq, List.map_singleton, List.intercalate_singleton, String.ofList_toList]
  cases ps with
  | nil => cases h
  | cons p rest =>
    cases rest with
    | nil => rw [← eq_of_slotName? h, single]
    | cons q rest =>
      -- Two parts have a slash between them, and no slot has one.
      have slash : '/' ∈ (Path.ofParts ([p] ++ q :: rest)).toList := by
        rw [Path.ofParts_append (by simp) (by simp)]
        simp
      exact absurd slash (notMem_of_slotName? h)

/-- The files below a location are at most one slot of each name. -/
theorem slots_differ {t : FileTree} (h : t.WellFormed) (l : Location) :
    ((t.filesBelow l).map Path.ofParts).Pairwise fun path other =>
      ∀ name, slotName? path = some name → slotName? other ≠ some name := by
  rw [List.pairwise_map]
  apply (h.nodup_filesBelow l).imp
  intro ps qs hne name hp hq
  exact hne ((eq_singleton_of_slotName? hp).trans (eq_singleton_of_slotName? hq).symm)

theorem pathOrdered_of_wellFormed {c : Catalog Files} (h : c.storage.tree.WellFormed) : PathOrdered c.slots := by
  show PathOrdered ((c.storage.list "").filterMap slotName?)
  rw [Files.list]
  split
  · exact List.Pairwise.nil
  · next root _ =>
    split
    · generalize hl : ((c.storage.tree.filesBelow root).map Path.ofParts).filter _ = listed
      have ascends := Sorted.ascends_sort listed
      have differ := (slots_differ h root).filter fun path => Text.startsWith path ""
      rw [hl] at differ
      -- Which paths are slots of different names does not depend on their order, so sorting keeps it.
      have differ' := (Sorted.sort_perm listed).symm.pairwise differ fun hd name hq hp => hd name hp hq
      apply List.Pairwise.filterMap _ _ (ascends.and differ')
      intro path path' both name hn name' hn'
      rw [← eq_of_slotName? hn, ← eq_of_slotName? hn']
      apply Text.lt_of_isLE both.1
      intro same
      exact both.2 name hn (same ▸ hn)
    · exact List.Pairwise.nil

theorem pathOrdered_after_files {f : Files} (hf : f.tree.WellFormed) (codec : Codec) (calls : List Call) :
    PathOrdered (after ⟨f, codec⟩ calls).slots := by
  apply pathOrdered_of_wellFormed
  apply after_keeps (P := fun f : Files => f.tree.WellFormed)
  · exact Files.wellFormed_write
  · exact Files.wellFormed_delete
  · exact hf

/-! ## The order of slots -/

/-- How the names of slots are ordered. -/
structure SlotOrder (names : List String) : Prop where
  pathOrdered : PathOrdered names
  ascends_iff : names.Pairwise (· < ·) ↔ ∀ name ∈ names, ∀ longer ∈ names, ¬TurnedAround name longer

theorem PathOrdered.slotOrder {names : List String} (h : PathOrdered names) : SlotOrder names := ⟨h, h.ascends_iff⟩

/-- After any calls the slots are listed in the order of their paths, each once. That is the order of their names
exactly where no name goes on after another one with a text that sorts below the ending. In files this holds from
any well-formed tree on. -/
theorem slots_in_path_order (codec : Codec) (calls : List Call) :
    SlotOrder (after (inMemory codec) calls).slots
      ∧ ∀ f : Files, f.tree.WellFormed → SlotOrder (after ⟨f, codec⟩ calls).slots := by
  refine ⟨(pathOrdered_after_inMemory codec calls).slotOrder, ?_⟩
  intro f hf
  exact (pathOrdered_after_files hf codec calls).slotOrder

/-- A name that goes on with the ending itself is not turned around. -/
theorem slots_in_path_order_endings :
    let calls : List Call := [.save (Table.levels.rename "a.dbf"), .save (Table.levels.rename "a"), .slots]
    FileTree.empty.WellFormed ∧ (after ⟨Files.newStore, .stored⟩ calls).slots = ["a", "a.dbf"]
      ∧ SlotOrder (after ⟨Files.newStore, .stored⟩ calls).slots :=
  ⟨FileTree.wellFormed_empty, by decide +kernel,
    (slots_in_path_order .stored _).2 Files.newStore FileTree.wellFormed_empty⟩

/-- A hyphen sorts below the dot of the ending, so the longer of two names can come first. -/
theorem slots_turned_around :
    let calls : List Call := [.save (Table.levels.rename "a"), .save (Table.levels.rename "a-b")]
    (after (inMemory .stored) calls).slots = ["a-b", "a"]
      ∧ (after ⟨Files.newStore, .stored⟩ calls).slots = ["a-b", "a"]
      ∧ ¬["a-b", "a"].Pairwise (· < ·) :=
  ⟨by decide +kernel, by decide +kernel, by decide⟩

end Catalog


end Relata
