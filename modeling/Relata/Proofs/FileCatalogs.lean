import Relata.Proofs.Catalogs
import Relata.Proofs.Mirroring
/-!
# Catalogs over files

A catalog over files under a fresh root and a catalog over memory that is empty at first give the same answers
to every run of calls, and no call changes anything outside the root but for directories on the way to it
(`run_eq_in_memory`). The path of a slot is a single name, so no slot is in the way of another. Only a path that is
too long for the system tells files from memory: no table is saved there (`save_without_room`), and nothing else is
done to it (`Mirrors.unreached`).
-/

namespace Relata

namespace Path

/-- A path that is a single part. -/
def IsSingle (path : String) : Prop := parts path = [path]

theorem isSingle_of_unslashed {path : String} (h : '/' ∉ path.toList) : IsSingle path := by
  rw [IsSingle, parts_eq, List.splitOn_eq_singleton h, List.map_singleton, String.ofList_toList]

/-- There is no directory on the way of a single name. -/
theorem IsSingle.not_above {path : String} (h : IsSingle path) (other : String) : ¬Above other path := by
  rintro ⟨hp, hne⟩
  rw [show parts path = [path] from h] at hp
  obtain he | he := List.prefix_concat_iff.mp (show parts other <+: [] ++ [path] from hp)
  · exact hne (parts_inj.mp (he.trans h.symm))
  · exact parts_ne_nil other (List.prefix_nil.mp he)

end Path

namespace Catalog

/-! ## Paths of slots under a root -/

/-- The path of a slot under a root is not too long for the system. -/
def HasRoom (root name : String) : Prop := (Path.join root (name ++ ending)).utf8ByteSize ≤ Path.maxPath

instance (root name : String) : Decidable (HasRoom root name) :=
  inferInstanceAs (Decidable ((Path.join root (name ++ ending)).utf8ByteSize ≤ Path.maxPath))

section Paths

variable {name : String} (hv : isSlotName name = true)
include hv

theorem notMem_slotPath : '/' ∉ (name ++ ending).toList ∧ Char.ofNat 0 ∉ (name ++ ending).toList := by
  simp only [isSlotName, Bool.and_eq_true, List.all_eq_true, decide_eq_true_eq, Bool.not_eq_true'] at hv
  rw [String.toList_append, List.mem_append, List.mem_append, not_or, not_or]
  refine ⟨⟨fun hm => (hv.2 _ hm).1.1 rfl, by decide⟩, fun hm => ?_, by decide⟩
  have := (hv.2 _ hm).2
  revert this
  decide

omit hv in
theorem isName_slotPath (hn : name.utf8ByteSize ≤ 251) : Path.IsName (name ++ ending) := by
  have size : (name ++ ending).utf8ByteSize = name.utf8ByteSize + 4 := String.utf8ByteSize_append
  have other : ∀ s : String, s.utf8ByteSize < 4 → name ++ ending ≠ s := by
    rintro s hs rfl
    omega
  refine ⟨other "" (by decide), other "." (by decide), other ".." (by decide), ?_⟩
  rw [size]
  exact Nat.add_le_add_right hn 4

omit hv in
theorem isAbsolute_slotPath (hs : Path.IsSingle (name ++ ending)) (hn : name.utf8ByteSize ≤ 251) :
    (∀ part ∈ Path.parts (name ++ ending), Path.IsName part) ∧ Path.isAbsolute (name ++ ending) = false := by
  have names : ∀ part ∈ Path.parts (name ++ ending), Path.IsName part := by
    rw [show Path.parts (name ++ ending) = [name ++ ending] from hs]
    simpa using isName_slotPath hn
  exact ⟨names, Path.isAbsolute_of_names names⟩

/-- The path of a slot under a root is walked unless it is too long. -/
theorem check_slotPath {root : String} (hn : name.utf8ByteSize ≤ 251) (hr : Path.check root = .ok ()) :
    Path.check (Path.join root (name ++ ending)) = if HasRoom root name then .ok () else .error .nameTooLong := by
  obtain ⟨slash, nul⟩ := notMem_slotPath hv
  obtain ⟨clean, start, -⟩ := Path.check_eq_ok_iff.mp hr
  have walkable : Char.ofNat 0 ∉ (Path.join root (name ++ ending)).toList ∧ Path.join root (name ++ ending) ≠ "" := by
    rw [Path.join, (isAbsolute_slotPath (Path.isSingle_of_unslashed slash) hn).2, if_neg (by simp)]
    split
    · rw [String.toList_append, List.mem_append, not_or]
      exact ⟨⟨clean, nul⟩, by simp [start]⟩
    · rw [String.toList_append, List.mem_append, not_or, String.toList_append, List.mem_append, not_or]
      exact ⟨⟨⟨clean, by decide⟩, nul⟩, by simp⟩
  rw [Path.check, if_neg (by simpa using walkable.1), if_neg walkable.2]
  by_cases room : HasRoom root name
  · rw [if_pos room, if_neg (Nat.not_lt.mpr room)]
  · rw [if_neg room, if_pos (Nat.lt_of_not_le room)]

theorem fits_slotPath {root : String} (hn : name.utf8ByteSize ≤ 251) (hr : Path.check root = .ok ())
    (room : HasRoom root name) : Path.IsSingle (name ++ ending) ∧ Path.Fits root (name ++ ending) := by
  have single := Path.isSingle_of_unslashed (notMem_slotPath hv).1
  have checked := check_slotPath hv hn hr
  rw [if_pos room] at checked
  exact ⟨single, checked, (isAbsolute_slotPath single hn).1⟩

end Paths

/-! ## Catalogs over files and over memory -/

def answers {σ : Type} [Storage σ] (c : Catalog σ) : List Call → List (Except StoreFault Answer)
  | [] => []
  | call :: rest => (c.call call).1 :: (c.call call).2.answers rest

/-- The files mirror the memory, and only slots have been written. -/
structure Mirrors (c : Catalog Files) (root : Location) (c' : Catalog Memory) : Prop where
  codec_eq : c.codec = c'.codec
  storage : ∃ made written, c.storage.Mirrors root made c'.storage written ∧ ∀ path ∈ written, Path.IsSingle path
  room : ∀ name, (c'.slot? name).isSome = true → HasRoom c.storage.root name

/-- What a call leaves on both catalogs. -/
structure SameCall (root : Location) (c : Catalog Files) (a : Except StoreFault Answer × Catalog Files)
    (a' : Except StoreFault Answer × Catalog Memory) : Prop where
  answer_eq : a.1 = a'.1
  mirrors : a.2.Mirrors root a'.2
  root_eq : a.2.storage.root = c.storage.root
  confined : FileTree.Confined root c.storage.tree a.2.storage.tree

section Mirrors

variable {c : Catalog Files} {root : Location} {c' : Catalog Memory} (h : c.Mirrors root c')
include h

theorem Mirrors.check_root : Path.check c.storage.root = .ok () := by
  obtain ⟨made, written, mirrors, -⟩ := h.storage
  exact mirrors.rooted.check_root

/-- Calls that change nothing need only answer alike. -/
theorem Mirrors.same {answer answer' : Except StoreFault Answer} (ha : answer = answer') :
    SameCall root c (answer, c) (answer', c') :=
  ⟨ha, h, rfl, fun _ _ => .inl rfl⟩

theorem Mirrors.refused {call : Call} {name : String} (hn : call.name? = some name) (hv : isSlotName name = false) :
    SameCall root c (c.call call) (c'.call call) := by
  rw [call_of_invalid c hv hn, call_of_invalid c' hv hn]
  exact h.same rfl

theorem Mirrors.slots : SameCall root c (c.call .slots) (c'.call .slots) := by
  obtain ⟨made, written, mirrors, -⟩ := h.storage
  apply h.same
  rw [Catalog.slots, Catalog.slots, mirrors.list_eq]

variable {name : String} (hv : isSlotName name = true) (hf : Path.Fits c.storage.root (name ++ ending))
  (hp : Path.IsSingle (name ++ ending))
include hv hf

theorem Mirrors.contains : SameCall root c (c.call (.contains name)) (c'.call (.contains name)) := by
  obtain ⟨made, written, mirrors, -⟩ := h.storage
  apply h.same
  rw [contains_of_valid c hv, contains_of_valid c' hv]
  exact congrArg (fun found => Except.ok (Answer.found found)) (mirrors.contains_eq hf)

theorem Mirrors.load : SameCall root c (c.call (.load name)) (c'.call (.load name)) := by
  obtain ⟨made, written, mirrors, -⟩ := h.storage
  apply h.same
  apply congrArg
  have found := mirrors.contains_eq hf
  cases hs : c'.slot? name with
  | none =>
    have absent : Storage.contains c'.storage (name ++ ending) = false := congrArg Option.isSome hs
    rw [load_of_absent c' hv absent, load_of_absent c hv (found.trans absent)]
  | some bytes =>
    have present : Storage.contains c'.storage (name ++ ending) = true := congrArg Option.isSome hs
    rw [load_of_slot?_eq_some c' hv hs,
      load_of_present c hv (found.trans present) (mirrors.read_of_contains hf hs).1]

theorem Mirrors.remove : SameCall root c (c.call (.remove name)) (c'.call (.remove name)) := by
  obtain ⟨made, written, mirrors, singles⟩ := h.storage
  obtain ⟨tree, he, ⟨made', mirrors'⟩, confined⟩ := mirrors.delete hf fun other ho => (singles other ho).not_above _
  rw [call_remove c' hv, Catalog.call, Catalog.remove, slotPath_of_valid hv]
  simp only [he]
  refine ⟨rfl, ⟨h.codec_eq, ⟨made', written, mirrors', singles⟩, ?_⟩, rfl, confined⟩
  intro other ho
  rw [slot?_remove] at ho
  split at ho
  · cases ho
  · exact h.room other ho

include hp in
theorem Mirrors.save {t : Table} (ht : t.name = name) (room : HasRoom c.storage.root name) :
    SameCall root c (c.call (.save t)) (c'.call (.save t)) := by
  obtain ⟨made, written, mirrors, singles⟩ := h.storage
  subst ht
  cases he : Snapshot.encode t c.codec with
  | error fault =>
    rw [Catalog.call, Catalog.call, Catalog.save, Catalog.save, ← h.codec_eq, slotPath_of_valid hv, he]
    exact h.same rfl
  | ok bytes =>
    obtain ⟨tree, hw, mirrors', confined⟩ :=
      mirrors.write hf (fun other _ => hp.not_above other) (fun other ho => (singles other ho).not_above _) bytes
    rw [call_save c' hv (h.codec_eq ▸ he), Catalog.call, Catalog.save, slotPath_of_valid hv, he]
    simp only [hw]
    refine ⟨rfl, ⟨h.codec_eq, ⟨tree, _, mirrors', ?_⟩, ?_⟩, rfl, confined⟩
    · simpa [or_imp, forall_and, hp] using singles
    · intro other ho
      rw [slot?_save] at ho
      split at ho
      · next same => exact same ▸ room
      · exact h.room other ho

end Mirrors

/-- A path that is too long leads to nothing, over files as in memory. -/
theorem Mirrors.unreached {c : Catalog Files} {root : Location} {c' : Catalog Memory} (h : c.Mirrors root c')
    {name : String} (hv : isSlotName name = true) (hn : name.utf8ByteSize ≤ 251) (room : ¬HasRoom c.storage.root name)
    {call : Call} (hc : call.name? = some name) (hs : call.saved? = none) :
    SameCall root c (c.call call) (c'.call call) := by
  have long := check_slotPath hv hn h.check_root
  rw [if_neg room] at long
  have nothing : c.storage.tree.look c.storage.base (c.storage.resolve (name ++ ending)) = none := by
    rw [FileTree.look, FileTree.locate, Files.resolve, long]
    rfl
  have absent : Storage.contains c.storage (name ++ ending) = false := by
    show c.storage.contains (name ++ ending) = false
    unfold Files.contains
    rw [nothing]
  have empty : c'.slot? name = none := Option.not_isSome_iff_eq_none.mp (mt (h.room name) room)
  cases call with
  | save t => cases hs
  | slots => cases hc
  | load other =>
    cases hc
    apply h.same
    rw [load_of_slot?_eq_none c' hv empty, load_of_absent c hv absent]
  | contains other =>
    cases hc
    apply h.same
    rw [Catalog.contains_eq c' hv, empty, contains_of_valid c hv, absent]
    rfl
  | remove other =>
    cases hc
    rw [call_remove c' hv, Entries.erase_of_lookup_eq_none empty, Catalog.call, Catalog.remove, slotPath_of_valid hv]
    have left : Storage.delete c.storage (name ++ ending) = (.ok (), c.storage) := by
      show c.storage.delete (name ++ ending) = _
      rw [Files.delete, nothing]
      rfl
    simp only [left]
    exact h.same rfl

theorem Mirrors.call {c : Catalog Files} {root : Location} {c' : Catalog Memory} (h : c.Mirrors root c') {call : Call}
    (hn : ∀ name ∈ call.name?, name.utf8ByteSize ≤ 251)
    (room : ∀ name ∈ call.saved?, isSlotName name = true → HasRoom c.storage.root name) :
    SameCall root c (c.call call) (c'.call call) := by
  cases hc : call.name? with
  | none =>
    cases call with
    | slots => exact h.slots
    | save t => cases hc
    | load name => cases hc
    | contains name => cases hc
    | remove name => cases hc
  | some name =>
    cases hv : isSlotName name with
    | false => exact h.refused hc hv
    | true =>
      by_cases reached : HasRoom c.storage.root name
      · obtain ⟨single, fits⟩ := fits_slotPath hv (hn name hc) h.check_root reached
        cases call with
        | save t => exact h.save hv fits single (Option.some.inj hc) reached
        | load other => cases hc; exact h.load hv fits
        | contains other => cases hc; exact h.contains hv fits
        | remove other => cases hc; exact h.remove hv fits
        | slots => cases hc
      · apply h.unreached hv (hn name hc) reached hc
        cases call with
        | save t => cases hc; exact absurd (room t.name rfl hv) reached
        | load other => rfl
        | contains other => rfl
        | remove other => rfl
        | slots => rfl

theorem Mirrors.answers {c : Catalog Files} {root : Location} {c' : Catalog Memory} (h : c.Mirrors root c')
    {calls : List Call} (hn : ∀ call ∈ calls, ∀ name ∈ call.name?, name.utf8ByteSize ≤ 251)
    (room : ∀ call ∈ calls, ∀ name ∈ call.saved?, isSlotName name = true → HasRoom c.storage.root name) :
    c.answers calls = c'.answers calls ∧ ∀ n, FileTree.Confined root (c.after (calls.take n)).storage.tree
      (c.after (calls.take (n + 1))).storage.tree := by
  induction calls generalizing c c' with
  | nil => exact ⟨rfl, fun n q _ => .inl (by rw [List.take_nil, List.take_nil])⟩
  | cons call calls ih =>
    rw [List.forall_mem_cons] at hn room
    have same := h.call hn.1 room.1
    obtain ⟨answers, confined⟩ := ih same.mirrors hn.2 (same.root_eq ▸ room.2)
    refine ⟨?_, fun n => ?_⟩
    · rw [Catalog.answers, Catalog.answers, same.answer_eq, answers]
    · cases n with
      | zero => exact same.confined
      | succ n => exact confined n

/-- A catalog over files under a fresh root answers every run of calls as a catalog over memory does that is empty
at first. Each call leaves what is outside the root, but for directories that it makes where nothing was. Names
have at most 251 bytes, and no table is saved in a slot whose path under the root is too long for the system. -/
theorem run_eq_in_memory {f : Files} {root : Location} (hf : f.Fresh root) (codec : Codec) {calls : List Call}
    (hn : ∀ call ∈ calls, ∀ name ∈ call.name?, name.utf8ByteSize ≤ 251)
    (room : ∀ call ∈ calls, ∀ name ∈ call.saved?, isSlotName name = true → HasRoom f.root name) :
    answers ⟨f, codec⟩ calls = answers (inMemory codec) calls
      ∧ ∀ n, FileTree.Confined root (after ⟨f, codec⟩ (calls.take n)).storage.tree
        (after ⟨f, codec⟩ (calls.take (n + 1))).storage.tree := by
  obtain ⟨made, mirrors⟩ := hf.mirrors
  have start : Mirrors ⟨f, codec⟩ root (inMemory codec) := ⟨rfl, ⟨made, [], mirrors, nofun⟩, nofun⟩
  exact start.answers hn room

/-- Before the first table is saved there is no directory to look into. -/
theorem run_eq_in_memory_levels :
    let calls : List Call := [.slots, .load "levels", .remove "levels", .save Table.levels,
      .save (Table.levels.rename "../levels"), .contains "levels", .save (Table.levels.rename "Åre"), .slots]
    let c : Catalog Files := ⟨.newStore, .stored⟩
    c.storage.Fresh ["store"] ∧ (∀ call ∈ calls, ∀ name ∈ call.name?, name.utf8ByteSize ≤ 251)
      ∧ (∀ call ∈ calls, ∀ name ∈ call.saved?, isSlotName name = true → HasRoom c.storage.root name)
      ∧ (c.after calls).slots = ["levels", "Åre"] ∧ c.answers calls = answers (inMemory .stored) calls :=
  ⟨Files.fresh_newStore, by decide, by decide, by decide +kernel,
    (run_eq_in_memory Files.fresh_newStore .stored (by decide) (by decide)).1⟩

/-! ### A path that is too long -/

/-- A table is not saved under a fresh root where the path of its slot is too long. -/
theorem save_without_room {f : Files} {root : Location} (hf : f.Fresh root) {t : Table} (hv : isSlotName t.name = true)
    (hn : t.name.utf8ByteSize ≤ 251) (room : ¬HasRoom f.root t.name) :
    (Catalog.call ⟨f, .stored⟩ (.save t)).1 = .error (.storage (.file .creating .nameTooLong)) := by
  obtain ⟨made, hm, -⟩ := hf.made
  have long := check_slotPath hv hn hf.check_root
  rw [if_neg room] at long
  have single := Path.isSingle_of_unslashed (notMem_slotPath hv).1
  have parts : Path.parts (f.resolve (t.name ++ ending)) = Path.stem f.root ++ [t.name ++ ending] := by
    rw [Files.resolve, Path.parts_join f.root (isAbsolute_slotPath single hn).2, single]
  have refused : ∀ bytes, made.createFile f.base (f.resolve (t.name ++ ending)) bytes = .error .nameTooLong := by
    intro bytes
    rw [FileTree.createFile, Files.resolve, long]
    rfl
  have written : ∀ bytes, Storage.write f (t.name ++ ending) bytes
      = (.error (Files.fault .creating .nameTooLong), { f with tree := made }) := by
    intro bytes
    show f.write (t.name ++ ending) bytes = _
    rw [Files.write, parts, Path.parent_append _ (isName_slotPath hn).not_isIdle, Path.settled_stem, hm]
    simp only [refused]
  rw [Catalog.call, Catalog.save, slotPath_of_valid hv, Snapshot.encode_stored]
  simp only [written]
  rfl

/-- The directory of new stores, with slashes behind its name. -/
def slashed (n : Nat) : Files := { Files.newStore with root := "store" ++ String.ofList (List.replicate n '/') }

theorem size_slashed (n : Nat) : (slashed n).root.utf8ByteSize = n + 5 := by
  have slashes : (String.ofList (List.replicate n '/')).utf8ByteSize = n := by
    induction n with
    | zero => rfl
    | succ n ih =>
      rw [List.replicate_succ', String.ofList_append, String.utf8ByteSize_append, ih]
      rfl
  rw [slashed, String.utf8ByteSize_append, slashes]
  exact Nat.add_comm 5 n

theorem fresh_slashed {n : Nat} (hn : n + 5 ≤ Path.maxPath) : (slashed n).Fresh ["store"] := by
  have size := size_slashed n
  have clean : Char.ofNat 0 ∉ (slashed n).root.toList := by
    rw [slashed, String.toList_append, List.mem_append, not_or]
    exact ⟨by decide, by simp⟩
  have start : (slashed n).root ≠ "" := by
    intro empty
    rw [empty] at size
    cases size
  exact Files.fresh_newStore.append_slashes n (Path.check_eq_ok_iff.mpr ⟨clean, start, size ▸ hn⟩)

/-- A table is saved in memory, and not under a fresh root whose path is as long as a path can be. -/
theorem long_root_is_refused : (slashed 4090).Fresh ["store"] ∧ (slashed 4090).root.utf8ByteSize = Path.maxPath
    ∧ answers ⟨slashed 4090, .stored⟩ [.save Table.levels] = [.error (.storage (.file .creating .nameTooLong))]
    ∧ answers (inMemory .stored) [.save Table.levels] = [.ok (.path "levels.dbf")] := by
  have fresh : (slashed 4090).Fresh ["store"] := fresh_slashed (Nat.le_refl _)
  have room : ¬HasRoom (slashed 4090).root "levels" := by
    rw [HasRoom, Nat.not_le]
    calc Path.maxPath < (slashed 4090).root.utf8ByteSize + ("levels" ++ ending).utf8ByteSize := by
          rw [size_slashed]
          decide
      _ ≤ (Path.join (slashed 4090).root ("levels" ++ ending)).utf8ByteSize := Path.le_size_join _ (by decide)
  refine ⟨fresh, size_slashed 4090, ?_, ?_⟩
  · exact congrArg (fun answer => [answer]) (save_without_room fresh (t := Table.levels) (by decide) (by decide) room)
  · exact congrArg (fun result => [Prod.fst result])
      (call_save (inMemory .stored) (t := Table.levels) (by decide) (Snapshot.encode_stored Table.levels))

end Catalog

end Relata
