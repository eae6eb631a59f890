import Relata.Proofs.FurtherDirectories
import Relata.Proofs.Mirroring
import Relata.Proofs.SlotOrder
/-!
# What a failed write leaves

A write makes the directories around its file first, and what was made stays when the file itself is refused. So a
failed write leaves directories and nothing else, and every later call answers as if the write had been left out, as
long as none writes or deletes at a directory that was left, and none reads or deletes what it reaches by turning back
at one (`failed_write_leaves_directories`). A write at such a directory fails, and does not where the failed write has been
left out (`failed_write_is_in_the_way`).
-/

namespace Relata

/-- The storage after some calls. -/
def Storage.after {σ : Type} [Storage σ] (s : σ) (calls : List Call) : σ := calls.foldl (fun s c => (call s c).2) s

namespace Files

open Storage (Call)

/-! ## The directories left -/

section Kinds

variable (kind : Location → Prop) (f : Files) (path : String)

/-- The location that a path leads to. -/
def destination : Location := Path.destination (Path.origin f.base path) (Path.parts path)

/-- Whether a path goes up from a location of a kind. -/
def TurnsBack : Prop := Path.TurnsBack kind (Path.origin f.base path) (Path.parts path)

/-- Whether a path leads to a location of a kind, or through one. -/
def Passes : Prop := Path.Passes kind (Path.origin f.base path) (Path.parts path)

instance [DecidablePred kind] : Decidable (f.TurnsBack kind path) := by unfold TurnsBack; infer_instance

instance [DecidablePred kind] : Decidable (f.Passes kind path) := by unfold Passes; infer_instance

end Kinds

/-- The directories in one file tree where there is nothing in the other. -/
def left (f f' : Files) : Location → Prop := FileTree.Leftover f.tree f'.tree

/-- A call writes and deletes nothing at a directory that is left. What it reads or deletes it does not reach by going
up from one. -/
def Spares (f f' : Files) : Call → Prop
  | .write path _ => ¬f.left f' (f.destination (f.resolve path))
  | .delete path => ¬f.left f' (f.destination (f.resolve path)) ∧ ¬f.TurnsBack (f.left f') (f.resolve path)
  | .read path => ¬f.TurnsBack (f.left f') (f.resolve path)
  | .contains path => ¬f.TurnsBack (f.left f') (f.resolve path)
  | .list _ => ¬f.TurnsBack (f.left f') f.root

/-- A call reads nothing at a directory that is left, nor below one. What it writes it does not reach by going up from
one. -/
def Shuns (f f' : Files) : Call → Prop
  | .read path => ¬f.Passes (f.left f') (f.resolve path)
  | .write path _ => ¬f.TurnsBack (f.left f') (f.resolve path)
  | _ => True

/-- Whether each call heeds the directories that are left when its turn comes. -/
def AllHeed (heeds : Files → Files → Call → Prop) (f f' : Files) : List Call → Prop
  | [] => True
  | c :: rest => heeds f f' c ∧ AllHeed heeds (Storage.call f c).2 (Storage.call f' c).2 rest

instance (f f' : Files) : DecidablePred (f.left f') := by unfold left; infer_instance

instance (f f' : Files) : ∀ c : Call, Decidable (Spares f f' c)
  | .write .. => instDecidableNot
  | .delete .. => instDecidableAnd
  | .read .. => instDecidableNot
  | .contains .. => instDecidableNot
  | .list .. => instDecidableNot

instance (f f' : Files) : ∀ c : Call, Decidable (Shuns f f' c)
  | .write .. => instDecidableNot
  | .read .. => instDecidableNot
  | .delete .. => instDecidableTrue
  | .contains .. => instDecidableTrue
  | .list .. => instDecidableTrue

instance (heeds : Files → Files → Call → Prop) [∀ f f' c, Decidable (heeds f f' c)] (f f' : Files) (calls : List Call) :
    Decidable (AllHeed heeds f f' calls) := by
  induction calls generalizing f f' with
  | nil => exact .isTrue trivial
  | cons c rest ih => exact instDecidableAnd

/-! ## What calls keep -/

/-- Every location is below directories, and the one where paths start is a directory itself. -/
structure Sound (f : Files) : Prop where
  wellFormed : f.tree.WellFormed
  based : f.tree.isDirectory f.base = true

/-- A call changes nothing but the file tree. -/
theorem exists_tree_of_call (f : Files) (c : Call) : ∃ tree, (Storage.call f c).2 = { f with tree } := by
  cases c with
  | write path bytes =>
    show ∃ tree, (f.write path bytes).2 = _
    rw [write]
    split
    · exact ⟨_, rfl⟩
    · split <;> exact ⟨_, rfl⟩
  | delete path =>
    show ∃ tree, (f.delete path).2 = _
    rw [delete]
    split
    · exact ⟨_, rfl⟩
    · split <;> exact ⟨_, rfl⟩
  | read path => exact ⟨_, rfl⟩
  | contains path => exact ⟨_, rfl⟩
  | list beginning => exact ⟨_, rfl⟩

/-- Directories stay directories. -/
theorem isDirectory_call (f : Files) (c : Call) {q : Location} (hq : f.tree.isDirectory q = true) :
    (Storage.call f c).2.tree.isDirectory q = true := by
  cases c with
  | write path bytes =>
    obtain ⟨made, adds, he | ⟨r, name, -, hf, he⟩⟩ := f.write_cases path bytes
    · exact he ▸ adds.isDirectory q hq
    · exact he ▸ FileTree.isDirectory_put hf (by simp) _ (adds.isDirectory q hq)
  | delete path =>
    obtain he | ⟨r, below, hf, he⟩ := f.delete_cases path
    · exact he ▸ hq
    · exact he ▸ FileTree.isDirectory_erase hf below hq
  | read path => exact hq
  | contains path => exact hq
  | list beginning => exact hq

theorem Sound.call {f : Files} (h : f.Sound) (c : Call) : (Storage.call f c).2.Sound where
  wellFormed := by
    cases c with
    | write path bytes => exact wellFormed_write f path bytes h.wellFormed
    | delete path => exact wellFormed_delete f path h.wellFormed
    | read path => exact h.wellFormed
    | contains path => exact h.wellFormed
    | list beginning => exact h.wellFormed
  based := by
    obtain ⟨tree, he⟩ := exists_tree_of_call f c
    have kept := isDirectory_call f c h.based
    rw [he] at kept ⊢
    exact kept

theorem Sound.after {f : Files} (h : f.Sound) (calls : List Call) : (Storage.after f calls).Sound := by
  induction calls generalizing f with
  | nil => exact h
  | cons c calls ih => exact ih (h.call c)

theorem Sound.isDirectory_origin {f : Files} (h : f.Sound) (path : String) :
    f.tree.isDirectory (Path.origin f.base path) = true := by
  rw [Path.origin]
  split
  · rfl
  · exact h.based

/-! ## Calls beside further directories -/

/-- The same files under the same root, with further directories in one of them. -/
structure Beside (f f' : Files) : Prop where
  sound : f.Sound
  base_eq : f'.base = f.base
  root_eq : f'.root = f.root
  adds : FileTree.Adds (f.left f') f.tree f'.tree

namespace Beside

variable {f f' : Files} (h : f.Beside f') {path : String}
include h

theorem resolve_eq (path : String) : f'.resolve path = f.resolve path := by rw [resolve, resolve, h.root_eq]

/-- A write comes to the same where it is not at a directory that is left. -/
theorem write_alike (hl : ¬f.left f' (f.destination (f.resolve path))) (bytes : Bytes) :
    FileTree.Adds (f.left f') (f.write path bytes).2.tree (f'.write path bytes).2.tree
      ∧ (f.write path bytes).1.toOption = (f'.write path bytes).1.toOption
      ∧ (¬f.TurnsBack (f.left f') (f.resolve path) → (f.write path bytes).1 = (f'.write path bytes).1) := by
  have ho := h.sound.isDirectory_origin (f.resolve path)
  have asked := Path.asked_parent f.base (f.resolve path)
  obtain ⟨adds, succeed, results⟩ := FileTree.ensureDirectories_alike h.adds h.sound.wellFormed ho asked
  have grown := f.tree.ensureDirectories_adds f.base (Path.parent (Path.parts (f.resolve path)))
  unfold Files.write
  rw [h.resolve_eq, h.base_eq]
  cases hr : f.tree.ensureDirectories f.base (Path.parent (Path.parts (f.resolve path))) with
  | mk result made =>
    cases hr' : f'.tree.ensureDirectories f.base (Path.parent (Path.parts (f.resolve path))) with
    | mk result' made' =>
      rw [hr, hr'] at adds succeed results
      rw [hr] at grown
      cases result with
      | error cause =>
        cases result' with
        | ok => cases succeed
        | error cause' =>
          refine ⟨adds, rfl, fun hb => ?_⟩
          rw [Except.error.inj (results (mt (Path.TurnsBack.extend (Path.parent_isPrefix _)) hb))]
      | ok =>
        cases result' with
        | error cause' => cases succeed
        | ok =>
          have wellFormed := grown.wellFormed h.sound.wellFormed
          obtain ⟨walked, there⟩ := FileTree.walk_of_ensureDirectories h.sound.wellFormed ho asked hr
          have same := fun ms (hm : ms <+: Path.parts (f.resolve path)) =>
            FileTree.walk_eq_of_parent adds wellFormed (grown.isDirectory _ ho) walked there hl hm
          obtain ⟨cause, he, he'⟩ | ⟨last, last', he, he', more⟩ :=
            FileTree.createFile_alike adds wellFormed (grown.isDirectory _ ho) same hl bytes
          · simp only [he, he']
            exact ⟨adds, trivial, fun _ => trivial⟩
          · simp only [he, he']
            exact ⟨more, trivial, fun _ => trivial⟩

/-- A path that does not turn back at a directory that is left leads to the same place, unless it misses what is a
directory that is left. -/
theorem locate_alike (hb : ¬f.TurnsBack (f.left f') path) :
    f'.tree.locate f.base path = f.tree.locate f.base path
      ∨ (∃ fault, f.tree.locate f.base path = .error fault)
        ∧ ∀ r, f'.tree.locate f.base path = .ok r → f.left f' r ∧ r = f.destination path := by
  cases hc : Path.check path with
  | error fault =>
    rw [FileTree.locate, FileTree.locate, hc]
    exact .inl rfl
  | ok =>
    rw [FileTree.locate_eq_walk hc, FileTree.locate_eq_walk hc]
    have ho := FileTree.isSome_of_isDirectory (h.sound.isDirectory_origin path)
    obtain same | ⟨missed, further⟩ := FileTree.walk_alike h.adds h.sound.wellFormed ho (Path.parts path)
    · exact .inl same
    · exact .inr ⟨⟨_, missed⟩, fun r hr => ⟨(further hb).2 r hr, FileTree.walk_eq_destination hr⟩⟩

theorem locate_eq (hp : ¬f.Passes (f.left f') path) : f'.tree.locate f.base path = f.tree.locate f.base path := by
  have ho := FileTree.isSome_of_isDirectory (h.sound.isDirectory_origin path)
  rw [FileTree.locate, FileTree.locate, FileTree.walk_congr h.adds h.sound.wellFormed ho hp]

/-- What a path leads to without further directories is there with them. -/
theorem node?_of_locate {r : Location} (hr : f.tree.locate f.base path = .ok r) :
    (f.tree.node? r).isSome = true ∧ f'.tree.node? r = f.tree.node? r := by
  rw [FileTree.locate_eq_walk (FileTree.check_of_locate hr)] at hr
  have ho := FileTree.isSome_of_isDirectory (h.sound.isDirectory_origin path)
  have hs := FileTree.isSome_walk h.sound.wellFormed ho hr
  exact ⟨hs, h.adds.node?_eq_of_isSome hs⟩

/-- A delete comes to the same where it is not at a directory that is left and does not turn back at one. -/
theorem delete_alike (hl : ¬f.left f' (f.destination (f.resolve path)))
    (hb : ¬f.TurnsBack (f.left f') (f.resolve path)) :
    FileTree.Adds (f.left f') (f.delete path).2.tree (f'.delete path).2.tree
      ∧ (f.delete path).1 = (f'.delete path).1 := by
  unfold Files.delete
  rw [h.resolve_eq, h.base_eq]
  obtain same | ⟨⟨fault, missed⟩, further⟩ := h.locate_alike hb
  · cases hr : f.tree.locate f.base (f.resolve path) with
    | error fault =>
      simp only [FileTree.look, same, hr]
      exact ⟨h.adds, rfl⟩
    | ok r =>
      obtain ⟨hs, node⟩ := h.node?_of_locate hr
      have found : ¬(f.tree.node? r).isNone = true := by simpa using Option.isSome_iff_ne_none.mp hs
      have alike : f'.tree.isDirectory r = f.tree.isDirectory r := by rw [FileTree.isDirectory, FileTree.isDirectory, node]
      simp only [FileTree.look, FileTree.removeFile, same, hr, node, if_neg found, alike, bind, Except.bind]
      cases hd : f.tree.isDirectory r with
      | true => exact ⟨h.adds, rfl⟩
      | false =>
        have below : r ≠ [] := by
          rintro rfl
          cases hd
        exact ⟨h.adds.erase below ((h.adds.wellFormed h.sound.wellFormed).erase below (alike.trans hd)), rfl⟩
  · cases hr : f'.tree.locate f.base (f.resolve path) with
    | error fault =>
      simp only [FileTree.look, missed, hr]
      exact ⟨h.adds, rfl⟩
    | ok r =>
      obtain ⟨hr, rfl⟩ := further r hr
      exact absurd hr hl

theorem readFile_eq (same : f'.tree.locate f.base path = f.tree.locate f.base path) :
    f'.tree.readFile f.base path = f.tree.readFile f.base path := by
  rw [FileTree.readFile, FileTree.readFile, same]
  cases hr : f.tree.locate f.base path with
  | error fault => rfl
  | ok r => simp only [bind, Except.bind, (h.node?_of_locate hr).2]

theorem read_eq (hp : ¬f.Passes (f.left f') (f.resolve path)) : f.read path = f'.read path := by
  rw [Files.read, Files.read, h.resolve_eq, h.base_eq, h.readFile_eq (h.locate_eq hp)]

/-- A read finds the same bytes where it does not turn back at a directory that is left. Where it finds none, it may miss
them for another reason. -/
theorem read_alike (hb : ¬f.TurnsBack (f.left f') (f.resolve path)) :
    (f.read path).toOption = (f'.read path).toOption := by
  rw [Files.read, Files.read, h.resolve_eq, h.base_eq]
  obtain same | ⟨⟨fault, missed⟩, further⟩ := h.locate_alike hb
  · rw [h.readFile_eq same]
  · have unread : ∃ cause, f.tree.readFile f.base (f.resolve path) = .error cause :=
      FileTree.readFile_eq_error (by simp [missed])
    have unread' : ∃ cause, f'.tree.readFile f.base (f.resolve path) = .error cause := by
      apply FileTree.readFile_eq_error
      intro r hr content hc
      rw [(further r hr).1.2] at hc
      cases hc
    obtain ⟨cause, hr⟩ := unread
    obtain ⟨cause', hr'⟩ := unread'
    rw [hr, hr']
    rfl

theorem contains_eq (hb : ¬f.TurnsBack (f.left f') (f.resolve path)) : f.contains path = f'.contains path := by
  unfold Files.contains FileTree.look
  rw [h.resolve_eq, h.base_eq]
  obtain same | ⟨⟨fault, missed⟩, further⟩ := h.locate_alike hb
  · rw [same]
    cases hr : f.tree.locate f.base (f.resolve path) with
    | error fault => rfl
    | ok r => simp only [(h.node?_of_locate hr).2]
  · rw [missed]
    cases hr : f'.tree.locate f.base (f.resolve path) with
    | error fault => rfl
    | ok r => simp only [(further r hr).1.2]

theorem list_eq (hb : ¬f.TurnsBack (f.left f') f.root) (beginning : String) : f.list beginning = f'.list beginning := by
  rw [Files.list, Files.list, h.root_eq, h.base_eq]
  have sorted := fun r => Sorted.sort_eq_sort_of_perm
    (((h.adds.filesBelow_perm h.sound.wellFormed r).map Path.ofParts).filter fun path => Text.startsWith path beginning)
  obtain same | ⟨⟨fault, missed⟩, further⟩ := h.locate_alike hb
  · rw [same]
    cases hr : f.tree.locate f.base f.root with
    | error fault => rfl
    | ok r =>
      dsimp only
      rw [FileTree.isDirectory, FileTree.isDirectory, (h.node?_of_locate hr).2, sorted r]
  · rw [missed]
    cases hr : f'.tree.locate f.base f.root with
    | error fault => rfl
    | ok r =>
      -- Below a directory that is left there are no files.
      have hl := (further r hr).1
      have nothing : f.tree.filesBelow r = [] := by
        rw [List.eq_nil_iff_forall_not_mem]
        intro ps hm
        obtain ⟨content, hc⟩ := h.sound.wellFormed.mem_filesBelow.mp hm
        rw [h.sound.wellFormed.node?_append_eq_none hl.1] at hc
        cases hc
      simp only [FileTree.isDirectory, hl.2, sorted, nothing]
      rfl

/-! ## Runs of calls -/

/-- A call that spares the directories that are left has the same answer, but for the reason of a failure, and they are
all that is left after it. -/
theorem call {c : Call} (hc : Spares f f' c) :
    (Storage.call f c).2.Beside (Storage.call f' c).2
      ∧ (Storage.call f c).1.toOption = (Storage.call f' c).1.toOption
      ∧ (Shuns f f' c → (Storage.call f c).1 = (Storage.call f' c).1) := by
  have adds : FileTree.Adds (f.left f') (Storage.call f c).2.tree (Storage.call f' c).2.tree
      ∧ (Storage.call f c).1.toOption = (Storage.call f' c).1.toOption
      ∧ (Shuns f f' c → (Storage.call f c).1 = (Storage.call f' c).1) := by
    cases c with
    | write path bytes =>
      obtain ⟨adds, succeed, same⟩ := h.write_alike hc bytes
      refine ⟨adds, ?_, fun hs => congrArg (Except.map fun _ => Storage.Answer.done) (same hs)⟩
      exact (toOption_map _ _).trans ((congrArg _ succeed).trans (toOption_map _ _).symm)
    | delete path =>
      obtain ⟨adds, same⟩ := h.delete_alike hc.1 hc.2
      have answer : (Storage.call f (.delete path)).1 = (Storage.call f' (.delete path)).1 :=
        congrArg (Except.map fun _ => Storage.Answer.done) same
      exact ⟨adds, congrArg _ answer, fun _ => answer⟩
    | read path =>
      refine ⟨h.adds, ?_, fun hs => congrArg (Except.map Storage.Answer.bytes) (h.read_eq hs)⟩
      exact (toOption_map _ _).trans ((congrArg _ (h.read_alike hc)).trans (toOption_map _ _).symm)
    | contains path =>
      have answer : (Storage.call f (.contains path)).1 = (Storage.call f' (.contains path)).1 :=
        congrArg (fun found => Except.ok (Storage.Answer.found found)) (h.contains_eq hc)
      exact ⟨h.adds, congrArg _ answer, fun _ => answer⟩
    | list beginning =>
      have answer : (Storage.call f (.list beginning)).1 = (Storage.call f' (.list beginning)).1 :=
        congrArg (fun paths => Except.ok (Storage.Answer.paths paths)) (h.list_eq hc beginning)
      exact ⟨h.adds, congrArg _ answer, fun _ => answer⟩
  obtain ⟨adds, answers⟩ := adds
  obtain ⟨tree, he⟩ := exists_tree_of_call f c
  obtain ⟨tree', he'⟩ := exists_tree_of_call f' c
  refine ⟨⟨h.sound.call c, ?_, ?_, adds.leftover⟩, answers⟩
  · rw [he, he']
    exact h.base_eq
  · rw [he, he']
    exact h.root_eq

theorem answers {calls : List Call} (hc : AllHeed Spares f f' calls) :
    (Storage.answers f calls).map Except.toOption = (Storage.answers f' calls).map Except.toOption
      ∧ (AllHeed Shuns f f' calls → Storage.answers f calls = Storage.answers f' calls) := by
  induction calls generalizing f f' with
  | nil => exact ⟨rfl, fun _ => rfl⟩
  | cons c calls ih =>
    obtain ⟨beside, succeed, same⟩ := h.call hc.1
    obtain ⟨succeeds, sames⟩ := ih beside hc.2
    refine ⟨?_, fun hs => ?_⟩
    · rw [Storage.answers, Storage.answers, List.map_cons, List.map_cons, succeed, succeeds]
    · rw [Storage.answers, Storage.answers, same hs.1, sames hs.2]

end Beside

/-- A write that fails has made directories on the way of its path, and has done nothing else. -/
theorem beside_of_write_eq_error {f : Files} (hf : f.Sound) {path : String} {bytes : Bytes} {fault : StoreFault}
    (hw : (f.write path bytes).1 = .error fault) :
    FileTree.Adds (fun q => f.Passes (· = q) (f.resolve path)) f.tree (f.write path bytes).2.tree
      ∧ f.Beside (f.write path bytes).2 := by
  have adds := FileTree.ensureDirectories_adds_passed hf.wellFormed (hf.isDirectory_origin (f.resolve path))
    (Path.asked_parent f.base (f.resolve path))
  have same : (f.write path bytes).2
      = { f with tree := (f.tree.ensureDirectories f.base (Path.parent (Path.parts (f.resolve path)))).2 } := by
    rw [write] at hw ⊢
    split
    · next he => rw [he]
    · next he =>
      rw [he] at hw ⊢
      split
      · rfl
      · next hc =>
        simp only [hc] at hw
        cases hw
  rw [same]
  refine ⟨adds.mono fun q => Path.Passes.extend (Path.parent_isPrefix _), hf, rfl, rfl, adds.leftover⟩

/-- A failed write leaves files and directories as they are and adds nothing but directories on the way of its path.
All later calls succeed or fail as they do where it has been left out, and find the same bytes and the same paths, as
long as none writes or deletes at a directory that is left, and none reads or deletes after going up from one. They
fail for the same reason if besides none reads at or below such a directory or writes after going up from one. -/
theorem failed_write_leaves_directories {f : Files} (hf : f.Sound) (before : List Call) {path : String} {bytes : Bytes}
    {fault : StoreFault} (hw : (Storage.write (Storage.after f before) path bytes).1 = .error fault) :
    let g := Storage.after f before
    let g' := (Storage.write g path bytes).2
    FileTree.Adds (fun q => g.Passes (· = q) (g.resolve path)) g.tree g'.tree
      ∧ ∀ later, AllHeed Spares g g' later →
        (Storage.answers g later).map Except.toOption = (Storage.answers g' later).map Except.toOption
          ∧ (AllHeed Shuns g g' later → Storage.answers g later = Storage.answers g' later) := by
  obtain ⟨adds, beside⟩ := beside_of_write_eq_error (hf.after before) hw
  exact ⟨adds, fun later => beside.answers⟩

theorem sound_newStore : newStore.Sound := ⟨FileTree.wellFormed_empty, rfl⟩

/-- A file is written below a directory that is left, and taken away again. -/
theorem failed_write_leaves_directories_below :
    let before : List Call := [.write "a" [1]]
    let later : List Call := [.list "", .read "d/x", .contains "d", .write "d/x" [2], .read "d/x", .delete "d/x", .list ""]
    let g := Storage.after newStore before
    let g' := (Storage.write g "d/x/" [3]).2
    newStore.Sound ∧ (Storage.write g "d/x/" [3]).1 = .error (fault .creating .isDirectory)
      ∧ g.left g' ["store", "d"] ∧ AllHeed Spares g g' later
      ∧ (Storage.answers g later).map Except.toOption = (Storage.answers g' later).map Except.toOption := by
  intro before later g g'
  have failed : (Storage.write g "d/x/" [3]).1 = .error (fault .creating .isDirectory) := by decide +kernel
  have spared : AllHeed Spares g g' later := by decide +kernel
  obtain ⟨-, answers⟩ := failed_write_leaves_directories sound_newStore before failed
  exact ⟨sound_newStore, failed, by decide +kernel, spared, (answers later spared).1⟩

/-- A path that ends with a slash leads to a directory, and is refused after the directories on its way have been made.
One of them is in the way of a file of its name then. -/
theorem failed_write_is_in_the_way :
    let later : List Call := [.write "d" [2]]
    newStore.Sound ∧ (Storage.write newStore "d/x/" [1]).1 = .error (fault .creating .isDirectory)
      ∧ Storage.answers newStore later = [.ok .done]
      ∧ Storage.answers (Storage.write newStore "d/x/" [1]).2 later = [.error (fault .creating .isDirectory)] :=
  ⟨sound_newStore, by decide +kernel, by decide +kernel, by decide +kernel⟩

end Files

end Relata
