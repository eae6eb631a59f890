import Mathlib.Data.List.Nodup
import Relata.Proofs.Roots
import Relata.Proofs.Sorting
import Relata.Store.Memory
/-!
# Files that mirror a storage in memory

Calls on files under a fresh root and on a storage in memory that is empty at first. After every call the files
below the root are those that memory holds, and the directories are those on the ways of the paths that have
been written (`Mirrors`). So both answer alike, as long as no path is written where a file is in the way or where
a directory was made (`answers_eq_memory`).
-/

namespace Relata

/-! ## Files below the root and entries in memory -/

/-- Outside a directory nothing changes but for directories that appear where nothing was. -/
def FileTree.Confined (root : Location) (t t' : FileTree) : Prop :=
  ∀ q, ¬root <+: q → t'.node? q = t.node? q ∨ (t.node? q = none ∧ t'.node? q = some .directory)

/-- The files below the root are those that memory holds. The directories below it are on the way of a path
that has been written. -/
structure Files.Mirrors (f : Files) (root : Location) (made : FileTree) (m : Memory) (written : List String) :
    Prop where
  rooted : f.Rooted root made
  ascending : Entries.Ascending m.entries
  file_iff : ∀ l content, made.node? (root ++ l) = some (.file content)
    ↔ ∃ path, Path.parts path = l ∧ m.entries.lookup path = some content
  directory : ∀ l, l ≠ [] → made.isDirectory (root ++ l) = true →
    ∃ path ∈ written, l <+: Path.parts path ∧ l ≠ Path.parts path

namespace Files

variable {f : Files} {root : Location} {made : FileTree} {m : Memory} {written : List String}

theorem Fresh.mirrors (h : f.Fresh root) : ∃ made, f.Mirrors root made Memory.empty [] := by
  obtain ⟨made, rooted, nothing⟩ := h.exists_rooted
  refine ⟨made, rooted, .nil, fun l content => ?_, fun l hl hd => ?_⟩
  · constructor
    · intro hc
      by_cases hl : l = []
      · rw [hl, List.append_nil, FileTree.isDirectory_iff.mp rooted.directory] at hc
        cases hc
      · rw [nothing l hl] at hc
        cases hc
    · rintro ⟨path, -, ⟨⟩⟩
  · rw [FileTree.isDirectory_iff, nothing l hl] at hd
    cases hd

namespace Mirrors

variable (h : f.Mirrors root made m written)
include h

theorem lookup_eq_some_iff {path : String} {content : Bytes} :
    m.entries.lookup path = some content ↔ made.node? (root ++ Path.parts path) = some (.file content) := by
  rw [h.file_iff]
  constructor
  · intro hc
    exact ⟨path, rfl, hc⟩
  · rintro ⟨path', hp, hc⟩
    rw [← Path.parts_inj.mp hp]
    exact hc

theorem mem_keys_iff {path : String} :
    path ∈ Entries.keys m.entries ↔ ∃ content, made.node? (root ++ Path.parts path) = some (.file content) := by
  rw [← Entries.isSome_lookup_iff, Option.isSome_iff_exists]
  simp only [h.lookup_eq_some_iff]

/-! ### Calls that change nothing -/

section Path

variable {path : String} (hp : Path.Fits f.root path)
include hp

theorem contains_eq : Storage.contains f path = Storage.contains m path := by
  show f.contains path = (m.entries.lookup path).isSome
  unfold Files.contains
  rw [h.rooted.look_eq hp, Bool.eq_iff_iff, Option.isSome_iff_exists]
  simp only [h.lookup_eq_some_iff]
  cases made.node? (root ++ Path.parts path) with
  | none => simp
  | some node => cases node <;> simp

theorem read_of_contains {content : Bytes} (hc : m.entries.lookup path = some content) :
    Storage.read f path = .ok content ∧ Storage.read m path = .ok content := by
  have file := h.lookup_eq_some_iff.mp hc
  constructor
  · show f.read path = .ok content
    rcases h.rooted.locate_cases hp with ⟨hl, rfl, -⟩ | ⟨-, hn⟩
    · rw [Files.read, FileTree.readFile_of_locate hl file]
      rfl
    · rw [hn] at file
      cases file
  · simp only [Storage.read, hc]

theorem read_of_not_contains (hc : m.entries.lookup path = none) :
    (Storage.read f path).toOption = none ∧ (Storage.read m path).toOption = none := by
  constructor
  · show (f.read path).toOption = none
    have unread : ∃ fault, f.tree.readFile f.base (f.resolve path) = .error fault := by
      apply FileTree.readFile_eq_error
      intro r hr content hn
      rcases h.rooted.locate_cases hp with ⟨hl, rfl, -⟩ | ⟨⟨fault, hl⟩, -⟩
      · cases hl.symm.trans hr
        rw [h.lookup_eq_some_iff.mpr hn] at hc
        cases hc
      · rw [hl] at hr
        cases hr
    obtain ⟨fault, hr⟩ := unread
    rw [Files.read, hr]
    rfl
  · simp only [Storage.read, hc]
    rfl

end Path

theorem filesBelow_perm : ((made.filesBelow root).map Path.ofParts).Perm (Entries.keys m.entries) := by
  have wf := h.rooted.wellFormed
  have same : ∀ l ∈ made.filesBelow root, Path.parts (Path.ofParts l) = l := by
    intro l hl
    obtain ⟨content, hc⟩ := wf.mem_filesBelow.mp hl
    obtain ⟨path, rfl, -⟩ := (h.file_iff l content).mp hc
    rw [Path.ofParts_parts]
  have distinct : ((made.filesBelow root).map Path.ofParts).Nodup := by
    apply List.Nodup.map_on _ (wf.nodup_filesBelow root)
    intro l hl l' hl' he
    rw [← same l hl, he, same l' hl']
  apply (List.perm_ext_iff_of_nodup distinct (Entries.nodup_of_ascending h.ascending)).mpr
  intro path
  rw [h.mem_keys_iff, List.mem_map]
  constructor
  · rintro ⟨l, hl, rfl⟩
    rw [same l hl]
    exact wf.mem_filesBelow.mp hl
  · intro hc
    exact ⟨Path.parts path, wf.mem_filesBelow.mpr hc, Path.ofParts_parts path⟩

/-- The files are listed in the order in which memory keeps its paths. -/
theorem list_eq (beginning : String) : Storage.list f beginning = Storage.list m beginning := by
  show f.list beginning = (Entries.keys m.entries).filter fun path => Text.startsWith path beginning
  have perm := h.filesBelow_perm
  rcases h.rooted.now with rfl | ⟨hn, -, nothing⟩
  · simp only [Files.list, h.rooted.leads, h.rooted.directory, if_true]
    apply Sorted.sort_eq_of_perm (perm.filter _)
    exact List.Pairwise.filter _ h.ascending
  · have none : Entries.keys m.entries = [] := by
      rw [List.eq_nil_iff_forall_not_mem]
      intro path hm
      obtain ⟨content, hc⟩ := h.mem_keys_iff.mp hm
      rw [nothing _ (Path.parts_ne_nil path)] at hc
      cases hc
    rw [Files.list, hn, none]
    rfl

/-! ### Calls that change what is stored -/

theorem confined {tree : FileTree} (hc : FileTree.Confined root made tree) : FileTree.Confined root f.tree tree := by
  intro q hq
  rcases h.rooted.now with rfl | ⟨-, hm, -⟩
  · exact hc q hq
  · have adds := f.tree.ensureDirectories_adds f.base (Path.settled (Path.parts f.root))
    rw [hm] at adds
    rcases adds.node?_eq q with he | ⟨hn, hd, -⟩
    · rw [← he]
      exact hc q hq
    · rcases hc q hq with he' | ⟨hn', -⟩
      · exact .inr ⟨hn, he'.trans hd⟩
      · rw [hd] at hn'
        cases hn'

theorem isDirectory_eq_false {path : String} (hw : ∀ other ∈ written, ¬Path.Above path other) :
    made.isDirectory (root ++ Path.parts path) = false := by
  rw [← Bool.not_eq_true]
  intro hd
  obtain ⟨other, ho, hpre, hne⟩ := h.directory _ (Path.parts_ne_nil path) hd
  exact hw other ho ⟨hpre, fun he => hne (congrArg Path.parts he)⟩

/-- Only one path changes, in memory and below the root. -/
theorem change {f' : Files} {tree : FileTree} (hr : f'.Rooted root tree) {entries : List (String × Bytes)}
    (ha : Entries.Ascending entries) {path : String} {now : Option Bytes}
    (hl : ∀ other, entries.lookup other = if other = path then now else m.entries.lookup other)
    (hf : ∀ l content, tree.node? (root ++ l) = some (.file content)
      ↔ if l = Path.parts path then now = some content else made.node? (root ++ l) = some (.file content))
    {written' : List String} (hd : ∀ l, l ≠ [] → tree.isDirectory (root ++ l) = true →
      ∃ other ∈ written', l <+: Path.parts other ∧ l ≠ Path.parts other) :
    f'.Mirrors root tree ⟨entries⟩ written' := by
  refine ⟨hr, ha, fun l content => ?_, hd⟩
  simp only [hf, hl, h.file_iff]
  by_cases he : l = Path.parts path
  · subst he
    simp [Path.parts_inj]
  · rw [if_neg he]
    have other : ∀ {path'}, Path.parts path' = l → path' ≠ path := by
      rintro path' rfl rfl
      exact he rfl
    constructor
    · rintro ⟨path', hp, hc⟩
      exact ⟨path', hp, by rw [if_neg (other hp), hc]⟩
    · rintro ⟨path', hp, hc⟩
      exact ⟨path', hp, by rwa [if_neg (other hp)] at hc⟩

variable {path : String} (hp : Path.Fits f.root path)
include hp

theorem write (hs : ∀ stored ∈ Entries.keys m.entries, ¬Path.Above stored path)
    (hw : ∀ other ∈ written, ¬Path.Above path other) (bytes : Bytes) :
    ∃ tree, Storage.write f path bytes = (.ok (), { f with tree })
      ∧ ({ f with tree } : Files).Mirrors root tree (m.insert path bytes) (written ++ [path])
      ∧ FileTree.Confined root f.tree tree := by
  obtain ⟨ds, name, hparts⟩ : ∃ ds name, Path.parts path = ds ++ [name] :=
    ⟨_, _, (List.dropLast_append_getLast (Path.parts_ne_nil path)).symm⟩
  have strict : ∀ ms, ms <+: ds → ms <+: Path.parts path ∧ ms ≠ Path.parts path := by
    intro ms hm
    rw [hparts]
    refine ⟨hm.trans (List.prefix_append ..), ?_⟩
    rintro rfl
    exact absurd hm.length_le (by simp)
  have clear : made.Unblocked root ds := by
    intro ms content hm hc
    obtain ⟨stored, rfl, -⟩ := (h.file_iff ms content).mp hc
    obtain ⟨hpre, hne⟩ := strict _ hm
    exact hs stored (h.mem_keys_iff.mpr ⟨content, hc⟩) ⟨hpre, fun he => hne (congrArg Path.parts he)⟩
  obtain ⟨tree, adds, around, free, he⟩ := h.rooted.write_eq hp hparts clear (h.isDirectory_eq_false hw) bytes
  have below : root ++ Path.parts path ≠ [] := by simp [Path.parts_ne_nil]
  have put := FileTree.node?_put (t := tree) below (.file bytes)
  have wellFormed : (tree.put (root ++ Path.parts path) (.file bytes)).WellFormed := by
    rw [hparts, ← List.append_assoc] at free ⊢
    apply (adds.wellFormed h.rooted.wellFormed).put around
    intro hd
    rw [free] at hd
    cases hd
  have rooted := h.rooted.change
    (fun q hq => FileTree.isDirectory_put free below (.file bytes) (adds.isDirectory q hq)) wellFormed
  have files : ∀ l content, (tree.put (root ++ Path.parts path) (.file bytes)).node? (root ++ l) = some (.file content)
      ↔ if l = Path.parts path then some bytes = some content else made.node? (root ++ l) = some (.file content) := by
    intro l content
    simp only [put, List.append_cancel_left_eq, ← adds.file_iff]
    split <;> simp
  refine ⟨_, he, h.change rooted (Entries.ascending_insert _ _ h.ascending)
    (fun other => Entries.lookup_insert _ _ _ other) files ?_, h.confined ?_⟩
  · intro l hl hd
    rw [FileTree.isDirectory_iff, put] at hd
    split at hd
    · cases hd
    · rcases adds.node?_eq (root ++ l) with hsame | ⟨-, -, ms, -, hms, hat⟩
      · obtain ⟨other, ho, hinside⟩ := h.directory l hl (FileTree.isDirectory_iff.mpr (hsame ▸ hd))
        exact ⟨other, List.mem_append_left _ ho, hinside⟩
      · rw [List.append_cancel_left_eq] at hat
        exact ⟨path, by simp, hat ▸ strict ms hms⟩
  · intro q hq
    have other : q ≠ root ++ Path.parts path := by
      rintro rfl
      exact hq (List.prefix_append ..)
    rw [put, if_neg other]
    refine (adds.node?_eq q).imp id ?_
    rintro ⟨-, -, ms, -, -, rfl⟩
    exact absurd (List.prefix_append ..) hq

theorem delete (hw : ∀ other ∈ written, ¬Path.Above path other) :
    ∃ tree, Storage.delete f path = (.ok (), { f with tree })
      ∧ (∃ made, ({ f with tree } : Files).Mirrors root made ⟨Entries.erase path m.entries⟩ written)
      ∧ FileTree.Confined root f.tree tree := by
  have ascending := Entries.ascending_erase path h.ascending
  have erased := Entries.lookup_erase path m.entries
  have free : made.isDirectory (root ++ Path.parts path) = false := h.isDirectory_eq_false hw
  show ∃ tree, f.delete path = _ ∧ _
  rw [Files.delete, h.rooted.look_eq hp]
  rcases h.rooted.locate_cases hp with ⟨hl, rfl, hs⟩ | ⟨-, hn⟩
  · have below : root ++ Path.parts path ≠ [] := by simp [Path.parts_ne_nil]
    have gone := FileTree.node?_erase (t := f.tree) below
    have removed : f.tree.removeFile f.base (f.resolve path)
        = .ok ⟨Entries.erase (root ++ Path.parts path) f.tree.nodes⟩ := by
      rw [FileTree.removeFile, hl]
      show (if f.tree.isDirectory _ then _ else _) = _
      rw [free]
      rfl
    have rooted := h.rooted.change (fun q => FileTree.isDirectory_erase free below)
      (h.rooted.wellFormed.erase below free)
    rw [if_neg (by simpa using Option.isSome_iff_ne_none.mp hs), removed]
    refine ⟨_, rfl, ⟨_, h.change rooted ascending erased ?_ ?_⟩, ?_⟩
    · intro l content
      simp only [gone, List.append_cancel_left_eq]
      split <;> simp
    · intro l hl hd
      rw [FileTree.isDirectory_iff, gone] at hd
      split at hd
      · cases hd
      · exact h.directory l hl (FileTree.isDirectory_iff.mpr hd)
    · intro q hq
      rw [gone, if_neg]
      · exact .inl rfl
      · rintro rfl
        exact hq (List.prefix_append ..)
  · rw [hn]
    refine ⟨f.tree, rfl, ⟨made, h.change h.rooted ascending erased ?_ h.directory⟩, fun q _ => .inl rfl⟩
    intro l content
    split
    · next he => simp [he, hn]
    · rfl

end Mirrors

end Files

/-! ## Runs of calls -/

namespace Storage

inductive Call where
  | write (path : String) (bytes : Bytes)
  | read (path : String)
  | delete (path : String)
  | contains (path : String)
  | list (beginning : String)

inductive Answer where
  | done
  | bytes (bytes : Bytes)
  | found (found : Bool)
  | paths (paths : List String)
  deriving DecidableEq

namespace Call

/-- The path that a call is about. -/
def path? : Call → Option String
  | write path _ => some path
  | read path => some path
  | delete path => some path
  | contains path => some path
  | list _ => none

def Fits (root : String) (call : Call) : Prop := ∀ path ∈ call.path?, Path.Fits root path

/-- The path that a call writes. -/
def written : Call → List String
  | write path _ => [path]
  | _ => []

/-- No path is written where a stored path is a directory on its way, or it is one on the way of a stored path. -/
def Apart (stored _written : List String) : Call → Prop
  | write path _ => ∀ other ∈ stored, ¬Path.Above other path ∧ ¬Path.Above path other
  | _ => True

/-- No path is written where a stored path is a directory on its way, and none is written or deleted that is a
directory on the way of a path that was ever written. -/
def Clear (stored written : List String) : Call → Prop
  | write path _ => (∀ other ∈ stored, ¬Path.Above other path) ∧ ∀ other ∈ written, ¬Path.Above path other
  | delete path => ∀ other ∈ written, ¬Path.Above path other
  | _ => True

instance (root : String) (call : Call) : Decidable (call.Fits root) := by
  unfold Fits
  infer_instance

instance (stored written : List String) (call : Call) : Decidable (call.Apart stored written) := by
  cases call <;> unfold Apart <;> infer_instance

instance (stored written : List String) (call : Call) : Decidable (call.Clear stored written) := by
  cases call <;> unfold Clear <;> infer_instance

end Call

variable {σ : Type} [Storage σ]

/-- The answer to a call, and the storage after it. -/
def call (s : σ) : Call → Except StoreFault Answer × σ
  | .write path bytes => ((Storage.write s path bytes).1.map fun _ => .done, (Storage.write s path bytes).2)
  | .read path => ((Storage.read s path).map .bytes, s)
  | .delete path => ((Storage.delete s path).1.map fun _ => .done, (Storage.delete s path).2)
  | .contains path => (.ok (.found (Storage.contains s path)), s)
  | .list beginning => (.ok (.paths (Storage.list s beginning)), s)

def answers (s : σ) : List Call → List (Except StoreFault Answer)
  | [] => []
  | c :: rest => (call s c).1 :: answers (call s c).2 rest

/-- Whether each call is allowed when its turn comes, by the paths that memory stores then and those that have
been written before. -/
def AllAllowed (allowed : List String → List String → Call → Prop) (m : Memory) (written : List String) :
    List Call → Prop
  | [] => True
  | c :: rest => allowed (Entries.keys m.entries) written c
    ∧ AllAllowed allowed (call m c).2 (written ++ c.written) rest

instance (allowed : List String → List String → Call → Prop) [∀ stored written c, Decidable (allowed stored written c)]
    (m : Memory) (written : List String) (calls : List Call) : Decidable (AllAllowed allowed m written calls) := by
  induction calls generalizing m written with
  | nil => exact .isTrue trivial
  | cons c rest ih => exact instDecidableAnd

end Storage

namespace Files

open Storage (Call)

variable {f : Files} {root : Location} {made : FileTree} {m : Memory} {written : List String}

/-- A call on files that mirror memory has the same answer as on memory, and they mirror it after the call. -/
theorem Mirrors.call (h : f.Mirrors root made m written) {c : Call} (hp : c.Fits f.root)
    (hc : c.Clear (Entries.keys m.entries) written) :
    (Storage.call f c).1.toOption = (Storage.call m c).1.toOption
      ∧ ∃ tree made, (Storage.call f c).2 = { f with tree }
        ∧ ({ f with tree } : Files).Mirrors root made (Storage.call m c).2 (written ++ c.written) := by
  have kept : f.Mirrors root made m (written ++ []) := by rwa [List.append_nil]
  cases c with
  | write path bytes =>
    obtain ⟨tree, he, mirrors, -⟩ := h.write (hp path rfl) hc.1 hc.2 bytes
    simp only [Storage.call, he]
    exact ⟨rfl, tree, tree, rfl, mirrors⟩
  | delete path =>
    obtain ⟨tree, he, ⟨made', mirrors⟩, -⟩ := h.delete (hp path rfl) hc
    simp only [Storage.call, he]
    exact ⟨rfl, tree, made', rfl, by show Files.Mirrors _ _ _ _ (written ++ []); rwa [List.append_nil]⟩
  | read path =>
    refine ⟨?_, f.tree, made, rfl, kept⟩
    simp only [Storage.call]
    cases hl : m.entries.lookup path with
    | some content =>
      obtain ⟨hf, hm⟩ := h.read_of_contains (hp path rfl) hl
      rw [hf, hm]
    | none =>
      obtain ⟨hf, hm⟩ := h.read_of_not_contains (hp path rfl) hl
      rw [toOption_map, toOption_map, hf, hm]
  | contains path =>
    refine ⟨?_, f.tree, made, rfl, kept⟩
    simp only [Storage.call, h.contains_eq (hp path rfl)]
  | list beginning =>
    refine ⟨?_, f.tree, made, rfl, kept⟩
    simp only [Storage.call, h.list_eq]

theorem Mirrors.answers (h : f.Mirrors root made m written) {calls : List Call} (hp : ∀ c ∈ calls, c.Fits f.root)
    (hc : Storage.AllAllowed Call.Clear m written calls) :
    (Storage.answers f calls).map Except.toOption = (Storage.answers m calls).map Except.toOption := by
  induction calls generalizing f made m written with
  | nil => rfl
  | cons c calls ih =>
    obtain ⟨first, later⟩ := hc
    rw [List.forall_mem_cons] at hp
    obtain ⟨answer, tree, made', he, mirrors⟩ := h.call hp.1 first
    rw [Storage.answers, Storage.answers, List.map_cons, List.map_cons, answer, he]
    exact congrArg _ (ih mirrors hp.2 later)

/-- Files under a fresh root answer as a storage in memory does that is empty at first: each call succeeds or
fails on both, with the same bytes, truth value or list of paths. -/
theorem answers_eq_memory (hf : f.Fresh root) {calls : List Call} (hp : ∀ c ∈ calls, c.Fits f.root)
    (hc : Storage.AllAllowed Call.Clear Memory.empty [] calls) :
    (Storage.answers f calls).map Except.toOption = (Storage.answers Memory.empty calls).map Except.toOption := by
  obtain ⟨made, mirrors⟩ := hf.mirrors
  exact mirrors.answers hp hc

/-! ### A storage in a new directory -/

/-- A store that will be made when something is written. -/
def newStore : Files := ⟨.empty, [], "store"⟩

theorem fresh_newStore : newStore.Fresh ["store"] :=
  fresh_of_name FileTree.wellFormed_empty rfl (by decide) (by decide) (by decide) rfl

/-- A file that was removed makes way for a directory of its name. -/
theorem answers_eq_memory_nested :
    let calls : List Call := [.list "", .delete "a", .write "a/b" [1], .write "ab" [2], .contains "a", .read "a", .list "a",
      .delete "a/b", .write "a/b/c" [3], .read "a/b/c", .list "a/"]
    newStore.Fresh ["store"] ∧ (∀ c ∈ calls, c.Fits newStore.root)
      ∧ Storage.AllAllowed Call.Clear Memory.empty [] calls
      ∧ (Storage.answers newStore calls).map Except.toOption
        = [some (.paths []), some .done, some .done, some .done, some (.found false), none, some (.paths ["a/b", "ab"]),
          some .done, some .done, some (.bytes [3]), some (.paths ["a/b/c"])] :=
  ⟨fresh_newStore, by decide, by decide,
    (answers_eq_memory fresh_newStore (by decide) (by decide)).trans (by decide +kernel)⟩

/-- A directory outlives its files: no file is written in its place, and it is not deleted itself. Memory knows
no directories, and does both. -/
theorem directories_outlive_files :
    newStore.Fresh ["store"] ∧ ∀ calls ∈ ([[.write "a/b" [1], .delete "a/b", .write "a" [2]],
        [.write "a/b" [1], .delete "a"]] : List (List Call)),
      (∀ c ∈ calls, c.Fits newStore.root) ∧ Storage.AllAllowed Call.Apart Memory.empty [] calls
        ∧ (Storage.answers newStore calls).map Except.toOption
          ≠ (Storage.answers Memory.empty calls).map Except.toOption :=
  ⟨fresh_newStore, by decide +kernel⟩

end Files

end Relata
