import Relata.Proofs.FileTrees
import Relata.Store.Files
/-!
# Roots

The root of files is a directory, or it will be one as soon as something is written (`Rooted`). A path leads to
its parts below the root (`Rooted.locate_cases`), and a file is written there after the directories on its way
(`Rooted.write_eq`).
-/

namespace Relata.Files

/-! ## Fresh roots -/

/-- A fresh root. Its path leads nowhere or to an empty directory, and when the directories on its way are made
it leads to an empty directory. -/
structure Fresh (f : Files) (root : Location) : Prop where
  wellFormed : f.tree.WellFormed
  unmade : f.tree.locate f.base f.root = .error .noEntry
    ∨ (f.tree.locate f.base f.root = .ok root ∧ f.tree.isDirectory root = true)
  made : ∃ made, f.tree.ensureDirectories f.base (Path.settled (Path.parts f.root)) = (.ok (), made)
    ∧ made.locate f.base f.root = .ok root ∧ made.isDirectory root = true
    ∧ ∀ l, l ≠ [] → made.node? (root ++ l) = none

/-- A new name in a directory is a fresh root. -/
theorem fresh_of_name {tree : FileTree} {base : Location} {name : String} (hw : tree.WellFormed)
    (hb : tree.isDirectory base = true) (hn : Path.IsName name) (hp : Path.parts name = [name])
    (hc : Path.check name = .ok ()) (hf : tree.node? (base ++ [name]) = none) :
    (⟨tree, base, name⟩ : Files).Fresh (base ++ [name]) := by
  have relative : Path.isAbsolute name = false := by
    apply Path.isAbsolute_of_names
    rw [hp]
    simpa using hn
  have origin : Path.origin base name = base := by
    rw [Path.origin, relative]
    rfl
  have walk : ∀ tree : FileTree, tree.locate base name = tree.enter base name := by
    intro tree
    rw [FileTree.locate_eq_walk hc, origin, hp, FileTree.walk_singleton]
  have start : tree.walk (Path.origin base name) [] = .ok base := by
    rw [origin]
    rfl
  obtain ⟨made, he, adds, hd⟩ := FileTree.ensureDirectory_name hc (show _ = [] ++ [name] from hp) hn start hb (by simp [hf])
  refine ⟨hw, .inl ?_, made, ?_, ?_, hd, ?_⟩
  · rw [walk, FileTree.enter_name hb hn, hf]
    rfl
  · have settled : Path.settled (Path.parts name) = [name] := by
      rw [hp]
      exact Path.settled_append_of_not_isIdle [] hn.not_isIdle
    have same : Path.ofParts [name] = name := by rw [← hp, Path.ofParts_parts]
    rw [settled, FileTree.ensureDirectories, dif_neg (by simp), same, he]
  · rw [walk, FileTree.enter_name (adds.isDirectory base hb) hn, FileTree.isDirectory_iff.mp hd]
    rfl
  · intro l hl
    rcases adds.node?_eq (base ++ [name] ++ l) with hs | ⟨-, -, hat⟩
    · rw [hs]
      exact hw.node?_append_eq_none hf l
    · exact absurd (List.append_right_eq_self.mp hat) hl

/-- The path of a fresh root can be walked. -/
theorem Fresh.check_root {f : Files} {root : Location} (h : f.Fresh root) : Path.check f.root = .ok () := by
  obtain ⟨made, -, leads, -, -⟩ := h.made
  exact FileTree.check_of_locate leads

/-- A slash at the end of its path leaves a root what it is. -/
theorem Fresh.append_slash {f : Files} {root : Location} (h : f.Fresh root) (hc : Path.check (f.root ++ "/") = .ok ()) :
    ({ f with root := f.root ++ "/" } : Files).Fresh root := by
  have parts : Path.parts (f.root ++ "/") = Path.parts f.root ++ [""] := by
    have split := Path.parts_append_slash f.root ""
    rw [String.append_empty] at split
    exact split
  have origin : Path.origin f.base (f.root ++ "/") = Path.origin f.base f.root := by
    obtain ⟨c, cs, hr⟩ := List.exists_cons_of_ne_nil (mt String.toList_eq_nil_iff.mp (Path.check_eq_ok_iff.mp h.check_root).2.1)
    simp [Path.origin, Path.isAbsolute, hr]
  have locate : ∀ tree : FileTree, tree.locate f.base (f.root ++ "/")
      = tree.walk (Path.origin f.base f.root) (Path.parts f.root ++ [""]) := by
    intro tree
    rw [FileTree.locate_eq_walk hc, origin, parts]
  -- The part behind the slash is empty and stays at the directory that the root leads to.
  have there : ∀ {tree : FileTree}, tree.locate f.base f.root = .ok root → tree.isDirectory root = true →
      tree.locate f.base (f.root ++ "/") = .ok root := by
    intro tree leads directory
    rw [FileTree.locate_eq_walk h.check_root] at leads
    rw [locate, FileTree.walk_append_of_ok leads, FileTree.walk_singleton, FileTree.enter_idle rfl, if_pos directory]
  obtain ⟨made, hm, leads, directory, nothing⟩ := h.made
  refine ⟨h.wellFormed, ?_, made, ?_, there leads directory, directory, nothing⟩
  · rcases h.unmade with absent | ⟨leads, directory⟩
    · rw [FileTree.locate_eq_walk h.check_root] at absent
      exact .inl ((locate f.tree).trans (FileTree.walk_append_of_error absent _))
    · exact .inr ⟨there leads directory, directory⟩
  · show f.tree.ensureDirectories f.base (Path.settled (Path.parts (f.root ++ "/"))) = _
    rw [parts, Path.settled_append_of_isIdle _ rfl, hm]

/-- So do any number of them, as long as the path can be walked. -/
theorem Fresh.append_slashes {f : Files} {root : Location} (h : f.Fresh root) (n : Nat)
    (hc : Path.check (f.root ++ String.ofList (List.replicate n '/')) = .ok ()) :
    ({ f with root := f.root ++ String.ofList (List.replicate n '/') } : Files).Fresh root := by
  induction n with
  | zero =>
    have same : f.root ++ String.ofList (List.replicate 0 '/') = f.root := String.append_empty
    rw [same]
    exact h
  | succ n ih =>
    have last : f.root ++ String.ofList (List.replicate (n + 1) '/')
        = f.root ++ String.ofList (List.replicate n '/') ++ "/" := by
      rw [List.replicate_succ', String.ofList_append, String.append_assoc]
    rw [last] at hc ⊢
    have shorter : Path.check (f.root ++ String.ofList (List.replicate n '/')) = .ok () := by
      rw [Path.check_eq_ok_iff, String.toList_append, List.mem_append, not_or, String.utf8ByteSize_append] at hc
      have moves : f.root ++ String.ofList (List.replicate n '/') ≠ "" := by
        have start := (Path.check_eq_ok_iff.mp h.check_root).2.1
        simp [start]
      exact Path.check_eq_ok_iff.mpr ⟨hc.1.1, moves, by omega⟩
    exact (ih shorter).append_slash hc

/-! ## Roots that are there or will be -/

/-- The root is a directory, or it will be one of the tree that is made when something is written. -/
structure Rooted (f : Files) (root : Location) (made : FileTree) : Prop where
  wellFormed : made.WellFormed
  leads : made.locate f.base f.root = .ok root
  directory : made.isDirectory root = true
  now : made = f.tree ∨ (f.tree.locate f.base f.root = .error .noEntry
    ∧ f.tree.ensureDirectories f.base (Path.settled (Path.parts f.root)) = (.ok (), made)
    ∧ ∀ l, l ≠ [] → made.node? (root ++ l) = none)

variable {f : Files} {root : Location} {made : FileTree}

theorem Fresh.exists_rooted (h : f.Fresh root) :
    ∃ made, f.Rooted root made ∧ ∀ l, l ≠ [] → made.node? (root ++ l) = none := by
  obtain ⟨made, hm, leads, directory, nothing⟩ := h.made
  have adds := f.tree.ensureDirectories_adds f.base (Path.settled (Path.parts f.root))
  rw [hm] at adds
  refine ⟨made, ⟨adds.wellFormed h.wellFormed, leads, directory, ?_⟩, nothing⟩
  rcases h.unmade with hn | ⟨hl, hd⟩
  · exact .inr ⟨hn, hm, nothing⟩
  · rw [FileTree.ensureDirectories_of_locate hl hd] at hm
    exact .inl (Prod.mk.inj hm).2.symm

namespace Rooted

variable (h : f.Rooted root made)
include h

theorem check_root : Path.check f.root = .ok () := FileTree.check_of_locate h.leads

theorem walk_stem : made.walk (Path.origin f.base f.root) (Path.stem f.root) = .ok root := by
  apply FileTree.walk_stem
  rw [← FileTree.locate_eq_walk h.check_root]
  exact h.leads

/-- Changes that leave the directories leave the root. -/
theorem change {tree : FileTree} (hk : ∀ q, made.isDirectory q = true → tree.isDirectory q = true)
    (hw : tree.WellFormed) : ({ f with tree } : Files).Rooted root tree where
  wellFormed := hw
  leads := by
    have walked := h.leads
    rw [FileTree.locate_eq_walk h.check_root] at walked ⊢
    exact FileTree.walk_mono hk walked h.directory
  directory := hk root h.directory
  now := .inl rfl

section Paths

variable {path : String} (hp : Path.Fits f.root path)
include hp

omit h in
theorem parts_resolve : Path.parts (f.resolve path) = Path.stem f.root ++ Path.parts path :=
  Path.parts_join f.root (Path.isAbsolute_of_names hp.names)

omit h in
theorem origin_resolve : Path.origin f.base (f.resolve path) = Path.origin f.base f.root := by
  rw [Path.origin, resolve, Path.isAbsolute_join f.root (Path.isAbsolute_of_names hp.names), Path.origin]

omit h in
theorem locate_resolve (tree : FileTree) : tree.locate f.base (f.resolve path)
    = tree.walk (Path.origin f.base f.root) (Path.stem f.root ++ Path.parts path) := by
  rw [← origin_resolve hp, ← parts_resolve hp]
  exact FileTree.locate_eq_walk hp.check_eq

/-- A path leads to its parts below the root, if anything is there. -/
theorem locate_cases : (f.tree.locate f.base (f.resolve path) = .ok (root ++ Path.parts path) ∧ made = f.tree
      ∧ (made.node? (root ++ Path.parts path)).isSome = true)
    ∨ ((∃ fault, f.tree.locate f.base (f.resolve path) = .error fault) ∧ made.node? (root ++ Path.parts path) = none) := by
  rw [locate_resolve hp]
  rcases h.now with rfl | ⟨hn, -, nothing⟩
  · rw [FileTree.walk_append_of_ok h.walk_stem]
    cases hs : f.tree.node? (root ++ Path.parts path) with
    | some node =>
      refine .inl ⟨?_, rfl, rfl⟩
      exact FileTree.walk_of_isSome hp.names h.wellFormed (by rw [hs]; rfl)
    | none =>
      refine .inr ⟨?_, rfl⟩
      cases hw : f.tree.walk root (Path.parts path) with
      | error fault => exact ⟨fault, rfl⟩
      | ok r =>
        obtain ⟨rfl, there⟩ := FileTree.isSome_of_walk hp.names h.directory hw
        rw [hs] at there
        cases there
  · rw [FileTree.locate_eq_walk h.check_root] at hn
    refine .inr ⟨⟨.noEntry, ?_⟩, nothing _ (Path.parts_ne_nil path)⟩
    exact FileTree.walk_append_of_error (FileTree.walk_stem_eq_noEntry hn) _

theorem look_eq : f.tree.look f.base (f.resolve path) = made.node? (root ++ Path.parts path) := by
  rcases h.locate_cases hp with ⟨hl, rfl, -⟩ | ⟨⟨fault, hl⟩, hn⟩
  · exact FileTree.look_of_locate hl
  · rw [FileTree.look, hl, hn]

end Paths

section Directories

variable {ds : List String} (hn : ∀ name ∈ ds, Path.IsName name)

include hn in
/-- Directories that are there are walked to, and so are those that are added. -/
theorem walk_of_adds {new : Location → Prop} {tree : FileTree} (ha : FileTree.Adds new made tree)
    (hd : tree.isDirectory (root ++ ds) = true) :
    tree.walk (Path.origin f.base f.root) (Path.stem f.root ++ ds) = .ok (root ++ ds) := by
  rw [FileTree.walk_append_of_ok (FileTree.walk_mono ha.isDirectory h.walk_stem h.directory)]
  apply FileTree.walk_of_isSome hn (ha.wellFormed h.wellFormed)
  rw [FileTree.isDirectory_iff.mp hd]
  rfl

/-- One more directory is made in one that is there, unless a file is in its place. -/
theorem ensureDirectory_below {path name : String} (hp : Path.Fits f.root path) (hs : Path.parts path = ds ++ [name])
    (hf : ∀ content, made.node? (root ++ Path.parts path) ≠ some (.file content)) {new : Location → Prop}
    {tree : FileTree} (ha : FileTree.Adds new made tree) (hd : tree.isDirectory (root ++ ds) = true) :
    ∃ tree', tree.ensureDirectory f.base (f.resolve path) = .ok tree' ∧ tree'.isDirectory (root ++ Path.parts path) = true
      ∧ FileTree.Adds (fun q => new q ∨ q = root ++ Path.parts path) made tree' := by
  have names := hp.names
  have parts := parts_resolve hp
  have free : ∀ content, tree.node? (root ++ Path.parts path) ≠ some (.file content) := by
    intro content
    rw [Ne, ha.file_iff]
    exact hf content
  rw [hs] at names parts free ⊢
  rw [List.forall_mem_append] at names
  have walked := h.walk_of_adds names.1 ha hd
  rw [← origin_resolve hp] at walked
  rw [← List.append_assoc] at parts free ⊢
  obtain ⟨tree', he, one, hd'⟩ :=
    FileTree.ensureDirectory_name hp.check_eq parts (names.2 name (by simp)) walked hd free
  exact ⟨tree', he, hd', .trans (ha.mono fun _ => .inl) (one.mono fun _ => .inr)⟩

variable (hf : made.Unblocked root ds)
include hf

include hn in
theorem directory_or_noEntry : (made = f.tree ∧ made.isDirectory (root ++ ds) = true)
    ∨ f.tree.walk (Path.origin f.base f.root) (Path.stem f.root ++ ds) = .error .noEntry := by
  rcases h.now with rfl | ⟨unmade, -⟩
  · rw [FileTree.walk_append_of_ok h.walk_stem]
    cases hnode : f.tree.node? (root ++ ds) with
    | none => exact .inr (FileTree.walk_eq_noEntry hn h.directory h.wellFormed hnode hf)
    | some node =>
      cases node with
      | directory => exact .inl ⟨rfl, FileTree.isDirectory_iff.mpr hnode⟩
      | file content => exact absurd hnode (hf ds content (List.prefix_refl ds))
  · rw [FileTree.locate_eq_walk h.check_root] at unmade
    exact .inr (FileTree.walk_append_of_error (FileTree.walk_stem_eq_noEntry unmade) ds)

/-- The directories on the way of a path can be made where no file is. -/
theorem ensureDirectories_stem (hu : ∀ ms, ms <+: ds → ms ≠ [] →
      Path.parts (Path.ofParts ms) = ms ∧ Path.Fits f.root (Path.ofParts ms)) :
    ∃ tree, f.tree.ensureDirectories f.base (Path.settled (Path.stem f.root ++ ds)) = (.ok (), tree)
      ∧ tree.isDirectory (root ++ ds) = true
      ∧ FileTree.Adds (FileTree.OnWay root ds) made tree := by
  -- From the root down: the directories before the last one are there or made first.
  induction ds using List.reverseRecOn with
  | nil =>
    rw [List.append_nil, List.append_nil, Path.settled_stem]
    refine ⟨made, ?_, h.directory, .refl ..⟩
    rcases h.now with rfl | ⟨-, hm, -⟩
    · exact FileTree.ensureDirectories_of_locate h.leads h.directory
    · exact hm
  | append_singleton ds name ih =>
    have shorter : ds <+: ds ++ [name] := List.prefix_append ..
    have clear := hf.of_prefix shorter
    have last : FileTree.OnWay root (ds ++ [name]) (root ++ (ds ++ [name])) := ⟨_, by simp, List.prefix_refl _, rfl⟩
    obtain ⟨same, fits⟩ := hu (ds ++ [name]) (List.prefix_refl _) (by simp)
    have names := fits.names
    rw [same, List.forall_mem_append] at names
    have moves := (names.2 name (by simp)).not_isIdle
    have whole := Path.ofParts_stem_append f.root fits.names
    have free := hf (ds ++ [name])
    have below := fun {new : Location → Prop} {tree : FileTree} (ha : FileTree.Adds new made tree) hd =>
      h.ensureDirectory_below fits same (fun content => by rw [same]; exact free content (List.prefix_refl _)) ha hd
    rw [same] at whole below
    rw [FileTree.ensureDirectories, ← List.append_assoc, Path.settled_append_of_not_isIdle _ moves, dif_neg (by simp),
      Path.parent_append _ moves, List.append_assoc, whole]
    rcases h.directory_or_noEntry names.1 clear with ⟨rfl, hd⟩ | missing
    · obtain ⟨tree, he, hd', adds⟩ := below (.refl (fun _ => False) _) hd
      rw [resolve] at he
      refine ⟨tree, by rw [he], hd', adds.mono ?_⟩
      intro q hq
      exact hq.resolve_left id ▸ last
    · obtain ⟨tree, hm, hd, adds⟩ := ih clear fun ms hms => hu ms (hms.trans shorter)
      obtain ⟨tree', he, hd', adds'⟩ := below adds hd
      have parts := parts_resolve fits
      rw [same, ← List.append_assoc] at parts
      rw [← origin_resolve fits] at missing
      rw [resolve] at he
      refine ⟨tree', ?_, hd', adds'.mono ?_⟩
      · rw [FileTree.ensureDirectory_eq_noEntry fits.check_eq parts (names.2 name (by simp)).1 missing, hm]
        simp only [he]
      · rintro q (hq | rfl)
        · exact hq.of_prefix shorter
        · exact last

end Directories

/-- A file is written where no directory is, and no file in the way. -/
theorem write_eq {path name : String} {ds : List String} (hp : Path.Fits f.root path)
    (hs : Path.parts path = ds ++ [name]) (hf : made.Unblocked root ds)
    (hd : made.isDirectory (root ++ Path.parts path) = false) (bytes : Bytes) :
    ∃ tree, FileTree.Adds (FileTree.OnWay root ds) made tree
      ∧ tree.isDirectory (root ++ ds) = true ∧ tree.isDirectory (root ++ Path.parts path) = false
      ∧ f.write path bytes = (.ok (), { f with tree := tree.put (root ++ Path.parts path) (.file bytes) }) := by
  have names := hp.names
  rw [hs, List.forall_mem_append] at names
  have named := names.2 name (by simp)
  obtain ⟨tree, hm, around, adds⟩ := h.ensureDirectories_stem hf fun ms hms =>
    hp.of_prefix (hs ▸ hms.trans (List.prefix_append ..))
  have free : tree.isDirectory (root ++ Path.parts path) = false := by
    rcases adds.node?_eq (root ++ Path.parts path) with he | ⟨-, -, ms, -, hms, he⟩
    · rw [FileTree.isDirectory, he]
      exact hd
    · rw [List.append_cancel_left_eq, hs] at he
      have := hms.length_le
      rw [← he, List.length_append, List.length_singleton] at this
      omega
  refine ⟨tree, adds, around, free, ?_⟩
  have parts := parts_resolve hp
  rw [hs, ← List.append_assoc] at parts
  have walked := h.walk_of_adds names.1 adds around
  rw [← origin_resolve hp] at walked
  rw [hs, ← List.append_assoc] at free ⊢
  have created : tree.createFile f.base (f.resolve path) bytes = _ :=
    FileTree.createFile_name hp.check_eq parts named walked around free bytes
  rw [write, parts, Path.parent_append _ named.not_isIdle, hm]
  simp only [created]

end Rooted

end Relata.Files
