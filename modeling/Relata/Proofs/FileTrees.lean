import Relata.Proofs.Entries
import Relata.Proofs.Partial
import Relata.Proofs.Paths
/-!
# File trees

What is at the end of a path is what is at its location, as long as its parts are names. Making directories
adds directories where nothing was and changes nothing else (`ensureDirectories_adds`). A walk to a directory
stays possible as long as directories stay directories (`walk_mono`).
-/

namespace Relata.FileTree

variable {t t' : FileTree} {l : Location}

/-! ## Nodes -/

/-- A tree lists no location twice, and none but below a directory. The top is not listed. -/
structure WellFormed (t : FileTree) : Prop where
  distinct : (Entries.keys t.nodes).Nodup
  top : [] ∉ Entries.keys t.nodes
  inside : ∀ l part, (t.node? (l ++ [part])).isSome = true → t.isDirectory l = true

theorem isDirectory_iff : t.isDirectory l = true ↔ t.node? l = some .directory := beq_iff_eq

theorem node?_put (hl : l ≠ []) (node : Node) (q : Location) :
    (t.put l node).node? q = if q = l then some node else t.node? q := by
  rw [node?, node?]
  by_cases hq : q = []
  · rw [if_pos hq, if_neg (fun he => hl (he.symm.trans hq)), if_pos hq]
  · rw [if_neg hq, if_neg hq]
    exact Entries.lookup_replace l node t.nodes q

theorem node?_erase (hl : l ≠ []) (q : Location) :
    (FileTree.mk (Entries.erase l t.nodes)).node? q = if q = l then none else t.node? q := by
  rw [node?, node?]
  by_cases hq : q = []
  · rw [if_pos hq, if_neg (fun he => hl (he.symm.trans hq)), if_pos hq]
  · rw [if_neg hq, if_neg hq]
    exact Entries.lookup_erase l t.nodes q

/-- Where no directory is, putting or erasing leaves the directories. -/
theorem isDirectory_put (hf : t.isDirectory l = false) (hl : l ≠ []) (node : Node) {q : Location}
    (hq : t.isDirectory q = true) : (t.put l node).isDirectory q = true := by
  have other : q ≠ l := by
    rintro rfl
    rw [hf] at hq
    cases hq
  rw [isDirectory_iff, node?_put hl, if_neg other]
  exact isDirectory_iff.mp hq

theorem isDirectory_erase (hf : t.isDirectory l = false) (hl : l ≠ []) {q : Location}
    (hq : t.isDirectory q = true) : (FileTree.mk (Entries.erase l t.nodes)).isDirectory q = true := by
  have other : q ≠ l := by
    rintro rfl
    rw [hf] at hq
    cases hq
  rw [isDirectory_iff, node?_erase hl, if_neg other]
  exact isDirectory_iff.mp hq

theorem wellFormed_empty : empty.WellFormed where
  distinct := .nil
  top := nofun
  inside l part hs := by simp [node?, empty] at hs

section WellFormed

variable (h : t.WellFormed)
include h

/-- A directory that is there already may only be put in its own place. -/
theorem WellFormed.put {name : String} (hl : t.isDirectory l = true) {node : Node}
    (hk : t.isDirectory (l ++ [name]) = true → node = .directory) : (t.put (l ++ [name]) node).WellFormed where
  distinct := Entries.nodup_keys_replace _ _ h.distinct
  top hm := by
    rcases (Entries.mem_keys_replace _ _ _ _).mp hm with he | hm
    · simp at he
    · exact h.top hm
  inside q part hs := by
    rw [node?_put (by simp)] at hs
    rw [isDirectory_iff, node?_put (by simp)]
    have around : t.isDirectory q = true := by
      by_cases he : q ++ [part] = l ++ [name]
      · rw [(List.append_inj' he rfl).1]
        exact hl
      · rw [if_neg he] at hs
        exact h.inside q part hs
    by_cases hq : q = l ++ [name]
    · rw [if_pos hq, hk (hq ▸ around)]
    · rw [if_neg hq]
      exact isDirectory_iff.mp around

theorem WellFormed.erase (hl : l ≠ []) (hf : t.isDirectory l = false) :
    (FileTree.mk (Entries.erase l t.nodes)).WellFormed where
  distinct := h.distinct.sublist (List.filter_sublist.map Prod.fst)
  top hm := h.top ((List.filter_sublist.map Prod.fst).subset hm)
  inside q part hs := by
    rw [node?_erase hl] at hs
    have there : (t.node? (q ++ [part])).isSome = true := by
      split at hs
      · cases hs
      · exact hs
    exact isDirectory_erase hf hl (h.inside q part there)

/-- Nothing is below what is not there. -/
theorem WellFormed.node?_append_eq_none (hl : t.node? l = none) (ps : List String) : t.node? (l ++ ps) = none := by
  induction ps using List.reverseRecOn with
  | nil => rwa [List.append_nil]
  | append_singleton ps part ih =>
    rw [← Option.not_isSome_iff_eq_none, ← List.append_assoc]
    intro hs
    rw [isDirectory_iff.mp (h.inside _ _ hs)] at ih
    cases ih

theorem WellFormed.mem_filesBelow {ps : List String} :
    ps ∈ t.filesBelow l ↔ ∃ content, t.node? (l ++ ps) = some (.file content) := by
  rw [filesBelow, List.mem_filterMap]
  constructor
  · rintro ⟨⟨q, node⟩, hm, he⟩
    cases node with
    | directory => cases he
    | file content =>
      refine ⟨content, ?_⟩
      dsimp only at he
      split at he
      · next hp =>
        obtain ⟨rest, rfl⟩ := List.isPrefixOf_iff_prefix.mp hp
        rw [Option.some.injEq, List.drop_left] at he
        subst he
        have listed : l ++ rest ∈ Entries.keys t.nodes := List.mem_map_of_mem hm
        have below : l ++ rest ≠ [] := by
          intro hn
          rw [hn] at listed
          exact h.top listed
        rw [node?, if_neg below]
        exact Entries.lookup_of_mem h.distinct hm
      · cases he
  · rintro ⟨content, hc⟩
    rw [node?] at hc
    split at hc
    · cases hc
    · refine ⟨(l ++ ps, .file content), Entries.mem_of_lookup hc, ?_⟩
      simp

theorem WellFormed.nodup_filesBelow (l : Location) : (t.filesBelow l).Nodup := by
  have distinct : t.nodes.Pairwise fun e e' => e.1 ≠ e'.1 := List.pairwise_map.mp h.distinct
  apply List.Pairwise.filterMap _ _ distinct
  rintro ⟨q, node⟩ ⟨q', node'⟩ hne ps hp ps' hp' rfl
  cases node with
  | directory => cases hp
  | file content =>
    cases node' with
    | directory => cases hp'
    | file content' =>
      dsimp only at hp hp' hne
      split at hp
      · next hq =>
        split at hp'
        · next hq' =>
          obtain ⟨rest, rfl⟩ := List.isPrefixOf_iff_prefix.mp hq
          obtain ⟨rest', rfl⟩ := List.isPrefixOf_iff_prefix.mp hq'
          simp only [List.drop_left, Option.some.injEq] at hp hp'
          exact hne (by rw [hp, hp'])
        · cases hp'
      · cases hp

end WellFormed

/-! ## Walking -/

theorem walk_append (l : Location) (ps qs : List String) :
    t.walk l (ps ++ qs) = t.walk l ps >>= fun r => t.walk r qs :=
  List.foldlM_append

theorem walk_append_of_ok {ps : List String} {r : Location} (h : t.walk l ps = .ok r) (qs : List String) :
    t.walk l (ps ++ qs) = t.walk r qs := by
  rw [walk_append, h]
  rfl

theorem walk_append_of_error {ps : List String} {fault : PathFault} (h : t.walk l ps = .error fault)
    (qs : List String) : t.walk l (ps ++ qs) = .error fault := by
  rw [walk_append, h]
  rfl

theorem walk_singleton (part : String) : t.walk l [part] = t.enter l part := by
  rw [walk, List.foldlM_cons]
  cases t.enter l part <;> rfl

/-- Only a directory is entered. A part that moves leads to the directory around or to an entry. -/
theorem enter_cases {part : String} {r : Location} (h : t.enter l part = .ok r) :
    t.isDirectory l = true ∧ (Path.isIdle part = true ∨ part = ".."
      ∨ (part.utf8ByteSize ≤ Path.maxName ∧ (t.node? (l ++ [part])).isSome = true)) := by
  rw [enter] at h
  split at h
  · cases h
  · next hd =>
    refine ⟨by simpa using hd, ?_⟩
    split at h
    · next hi => exact .inl hi
    · split at h
      · next hu => exact .inr (.inl hu)
      · split at h
        · cases h
        · next hn =>
          split at h
          · cases h
          · next hs => exact .inr (.inr ⟨Nat.not_lt.mp hn, Option.ne_none_iff_isSome.mp (by simpa using hs)⟩)

theorem enter_idle {part : String} (hi : Path.isIdle part = true) :
    t.enter l part = if t.isDirectory l then .ok l else .error .notDirectory := by
  rw [enter, hi]
  cases t.isDirectory l <;> rfl

theorem enter_mono (hk : ∀ q, t.isDirectory q = true → t'.isDirectory q = true) {part : String} {r : Location}
    (h : t.enter l part = .ok r) (hr : t.isDirectory r = true) : t'.enter l part = .ok r := by
  have hl := (enter_cases h).1
  rw [enter, hl, if_neg (by simp)] at h
  rw [enter, hk l hl, if_neg (by simp)]
  by_cases hi : Path.isIdle part = true
  · rw [if_pos hi] at h ⊢
    exact h
  · rw [if_neg hi] at h ⊢
    by_cases hu : part = ".."
    · rw [if_pos hu] at h ⊢
      exact h
    · rw [if_neg hu] at h ⊢
      split at h
      · cases h
      · next hn =>
        split at h
        · cases h
        · cases h
          rw [if_neg hn, if_neg (by simp [isDirectory_iff.mp (hk _ hr)])]

/-- A walk to a directory passes only directories. -/
theorem isDirectory_of_walk {ps : List String} {r : Location} (h : t.walk l ps = .ok r)
    (hr : t.isDirectory r = true) : t.isDirectory l = true := by
  cases ps with
  | nil => exact Except.ok.inj h ▸ hr
  | cons part ps =>
    rw [walk, List.foldlM_cons] at h
    obtain ⟨q, he, -⟩ := exists_of_bind_eq_ok h
    exact (enter_cases he).1

/-- Idle parts at the end of a walk add nothing to it. -/
theorem walk_of_walk_append {ps idle : List String} (hi : ∀ part ∈ idle, Path.isIdle part = true) {r : Location}
    (h : t.walk l (ps ++ idle) = .ok r) : t.walk l ps = .ok r := by
  induction idle using List.reverseRecOn generalizing r with
  | nil => rwa [List.append_nil] at h
  | append_singleton idle part ih =>
    rw [List.forall_mem_append] at hi
    rw [← List.append_assoc, walk_append] at h
    obtain ⟨q, hq, h⟩ := exists_of_bind_eq_ok h
    rw [walk_singleton, enter_idle (hi.2 part (by simp))] at h
    split at h
    · cases h
      exact ih hi.1 hq
    · cases h

/-- A root's own path and its stem lead to the same place. -/
theorem walk_stem {root : String} {r : Location} (h : t.walk l (Path.parts root) = .ok r) :
    t.walk l (Path.stem root) = .ok r := by
  rcases Path.parts_eq_stem root with hs | hs
  · rwa [hs] at h
  · rw [hs] at h
    exact walk_of_walk_append (by simp [Path.isIdle]) h

theorem walk_stem_eq_noEntry {root : String} (h : t.walk l (Path.parts root) = .error .noEntry) :
    t.walk l (Path.stem root) = .error .noEntry := by
  rcases Path.parts_eq_stem root with hs | hs
  · rwa [hs] at h
  · rw [hs, walk_append] at h
    cases hw : t.walk l (Path.stem root) with
    | error fault =>
      rw [hw] at h
      cases h
      rfl
    | ok q =>
      rw [hw] at h
      change t.walk q [""] = _ at h
      rw [walk_singleton, enter_idle rfl] at h
      split at h <;> cases h

theorem walk_mono (hk : ∀ q, t.isDirectory q = true → t'.isDirectory q = true) {ps : List String} {r : Location}
    (h : t.walk l ps = .ok r) (hr : t.isDirectory r = true) : t'.walk l ps = .ok r := by
  induction ps generalizing l with
  | nil => exact h
  | cons part ps ih =>
    rw [walk, List.foldlM_cons] at h ⊢
    obtain ⟨q, he, h⟩ := exists_of_bind_eq_ok h
    rw [enter_mono hk he (isDirectory_of_walk h hr)]
    exact ih h

section Names

/-- No file is on the way of names from a location, nor at its end. -/
def Unblocked (t : FileTree) (l : Location) (ns : List String) : Prop :=
  ∀ ms content, ms <+: ns → t.node? (l ++ ms) ≠ some (.file content)

theorem Unblocked.of_prefix {ns ms : List String} (h : t.Unblocked l ns) (hm : ms <+: ns) : t.Unblocked l ms :=
  fun _ content hp => h _ content (hp.trans hm)

theorem enter_name (hl : t.isDirectory l = true) {name : String} (h : Path.IsName name) :
    t.enter l name = if (t.node? (l ++ [name])).isNone then .error .noEntry else .ok (l ++ [name]) := by
  have short := h.2.2.2
  rw [enter, hl, h.not_isIdle, if_neg (by simp), if_neg (by simp), if_neg h.2.2.1, if_neg (by omega)]

variable {ns : List String} (hn : ∀ name ∈ ns, Path.IsName name)
include hn

theorem walk_of_isSome (ht : t.WellFormed) (hs : (t.node? (l ++ ns)).isSome = true) : t.walk l ns = .ok (l ++ ns) := by
  induction ns using List.reverseRecOn with
  | nil => rw [List.append_nil]; rfl
  | append_singleton ns name ih =>
    rw [List.forall_mem_append] at hn
    rw [← List.append_assoc] at hs ⊢
    have around := ht.inside _ _ hs
    have far := ih hn.1 (by simp [isDirectory_iff.mp around])
    rw [walk_append_of_ok far, walk_singleton, enter_name around (hn.2 name (by simp)), if_neg]
    simpa using Option.isSome_iff_ne_none.mp hs

variable (hl : t.isDirectory l = true)
include hl

theorem isSome_of_walk {r : Location} (h : t.walk l ns = .ok r) : r = l ++ ns ∧ (t.node? r).isSome = true := by
  induction ns using List.reverseRecOn generalizing r with
  | nil =>
    cases h
    exact ⟨(List.append_nil l).symm, by simp [isDirectory_iff.mp hl]⟩
  | append_singleton ns name ih =>
    rw [List.forall_mem_append] at hn
    rw [walk_append] at h
    obtain ⟨q, hq, h⟩ := exists_of_bind_eq_ok h
    obtain ⟨rfl, -⟩ := ih hn.1 hq
    rw [walk_singleton] at h
    rw [enter_name (enter_cases h).1 (hn.2 name (by simp))] at h
    split at h
    · cases h
    · next hs =>
      cases h
      rw [Option.isNone_iff_eq_none] at hs
      exact ⟨List.append_assoc .., Option.ne_none_iff_isSome.mp hs⟩

/-- Names that lead nowhere do so because of an entry that is missing, unless a file is on their way. -/
theorem walk_eq_noEntry (ht : t.WellFormed) (hs : t.node? (l ++ ns) = none) (hf : t.Unblocked l ns) :
    t.walk l ns = .error .noEntry := by
  induction ns using List.reverseRecOn with
  | nil =>
    rw [List.append_nil, isDirectory_iff.mp hl] at hs
    cases hs
  | append_singleton ns name ih =>
    rw [List.forall_mem_append] at hn
    cases hnode : t.node? (l ++ ns) with
    | none =>
      apply walk_append_of_error
      exact ih hn.1 hnode (hf.of_prefix (List.prefix_append ..))
    | some node =>
      cases node with
      | file content => exact absurd hnode (hf ns content (List.prefix_append ..))
      | directory =>
        have far : t.walk l ns = .ok (l ++ ns) := walk_of_isSome hn.1 ht (by simp [hnode])
        rw [walk_append_of_ok far, walk_singleton,
          enter_name (isDirectory_iff.mpr hnode) (hn.2 name (by simp)), List.append_assoc, hs]
        rfl

end Names

/-! ## Adding directories -/

/-- The locations on the way of names from a location, and at its end. -/
def OnWay (l : Location) (ns : List String) (q : Location) : Prop := ∃ ms, ms ≠ [] ∧ ms <+: ns ∧ q = l ++ ms

theorem OnWay.of_prefix {ns ms : List String} {q : Location} (h : OnWay l ms q) (hm : ms <+: ns) : OnWay l ns q := by
  obtain ⟨ks, hk, hp, hq⟩ := h
  exact ⟨ks, hk, hp.trans hm, hq⟩

/-- Directories are added where nothing was, at locations that are said to be new. -/
structure Adds (new : Location → Prop) (t t' : FileTree) : Prop where
  node?_eq : ∀ q, t'.node? q = t.node? q ∨ (t.node? q = none ∧ t'.node? q = some .directory ∧ new q)
  wellFormed : t.WellFormed → t'.WellFormed

section Adds

variable {new : Location → Prop}

theorem Adds.refl (new : Location → Prop) (t : FileTree) : Adds new t t := ⟨fun _ => .inl rfl, id⟩

theorem Adds.trans {t'' : FileTree} (h : Adds new t t') (h' : Adds new t' t'') : Adds new t t'' where
  node?_eq q := by
    rcases h'.node?_eq q with he' | ⟨hn', hd', hq⟩
    · rw [he']
      exact h.node?_eq q
    · rcases h.node?_eq q with he | ⟨-, hd, -⟩
      · exact .inr ⟨he ▸ hn', hd', hq⟩
      · rw [hd] at hn'
        cases hn'
  wellFormed := h'.wellFormed ∘ h.wellFormed

theorem Adds.mono {new' : Location → Prop} (h : Adds new t t') (hn : ∀ q, new q → new' q) : Adds new' t t' where
  node?_eq q := (h.node?_eq q).imp id fun ⟨hq, hq', hnew⟩ => ⟨hq, hq', hn q hnew⟩
  wellFormed := h.wellFormed

theorem Adds.isDirectory (h : Adds new t t') (q : Location) (hq : t.isDirectory q = true) : t'.isDirectory q = true := by
  rw [isDirectory_iff] at hq ⊢
  rcases h.node?_eq q with he | ⟨hn, -, -⟩
  · rw [he, hq]
  · rw [hn] at hq
    cases hq

/-- Files stay as they are, and none comes. -/
theorem Adds.file_iff (h : Adds new t t') (q : Location) (content : Bytes) :
    t'.node? q = some (.file content) ↔ t.node? q = some (.file content) := by
  rcases h.node?_eq q with he | ⟨hn, hd, -⟩
  · rw [he]
  · rw [hn, hd]
    simp

theorem adds_put {name : String} (hl : t.isDirectory l = true) (hn : t.node? (l ++ [name]) = none) :
    Adds (· = l ++ [name]) t (t.put (l ++ [name]) .directory) where
  node?_eq q := by
    rw [node?_put (by simp)]
    by_cases hq : q = l ++ [name]
    · rw [if_pos hq]
      exact .inr ⟨hq ▸ hn, rfl, hq⟩
    · rw [if_neg hq]
      exact .inl rfl
  wellFormed h := h.put hl fun _ => rfl

end Adds

/-! ## Making directories -/

section Making

variable {base : Location} {path : String}

/-- A directory is made in a directory, where nothing was. -/
theorem createDirectory_eq_ok (h : t.createDirectory base path = .ok t') :
    ∃ q name, t.isDirectory q = true ∧ t.node? (q ++ [name]) = none ∧ t' = t.put (q ++ [name]) .directory := by
  obtain ⟨⟨⟩, -, h⟩ := exists_of_bind_eq_ok h
  obtain ⟨q, -, h⟩ := exists_of_bind_eq_ok h
  dsimp only at h
  split at h
  · cases h
  · next hd =>
    split at h
    · cases h
    · split at h
      · cases h
      · split at h
        · cases h
        · next hs =>
          cases h
          exact ⟨q, _, by simpa using hd, by simpa using hs, rfl⟩

/-- A file is put in a directory, and not in place of one. -/
theorem createFile_eq_ok {content : Bytes} (h : t.createFile base path content = .ok t') :
    ∃ q name, t.isDirectory q = true ∧ t.isDirectory (q ++ [name]) = false
      ∧ t' = t.put (q ++ [name]) (.file content) := by
  obtain ⟨⟨⟩, -, h⟩ := exists_of_bind_eq_ok h
  obtain ⟨q, -, h⟩ := exists_of_bind_eq_ok h
  dsimp only at h
  split at h
  · cases h
  · next hd =>
    split at h
    · cases h
    · split at h
      · cases h
      · split at h
        · cases h
        · next hf =>
          cases h
          exact ⟨q, _, by simpa using hd, by simpa using hf, rfl⟩

theorem removeFile_eq_ok (h : t.removeFile base path = .ok t') :
    ∃ q, t.isDirectory q = false ∧ t' = ⟨Entries.erase q t.nodes⟩ := by
  obtain ⟨q, -, h⟩ := exists_of_bind_eq_ok h
  split at h
  · cases h
  · next hd =>
    cases h
    exact ⟨q, by simpa using hd, rfl⟩

theorem ensureDirectory_adds (h : t.ensureDirectory base path = .ok t') : Adds (fun _ => True) t t' := by
  rw [ensureDirectory] at h
  split at h
  · next made hc =>
    cases h
    obtain ⟨q, name, hd, hn, rfl⟩ := createDirectory_eq_ok hc
    exact (adds_put hd hn).mono fun _ _ => trivial
  · split at h
    · cases h
      exact .refl ..
    · cases h

/-- Making directories adds directories and does nothing else, also when it fails. -/
theorem ensureDirectories_adds (t : FileTree) (base : Location) (ps : List String) :
    Adds (fun _ => True) t (t.ensureDirectories base ps).2 := by
  fun_induction t.ensureDirectories base ps with
  | case1 => exact .refl ..
  | case2 ps hn made h => exact ensureDirectory_adds h
  | case3 ps hn h fault made around ih =>
    rw [around] at ih
    exact ih
  | case4 ps hn h made around made' h' ih =>
    rw [around] at ih
    exact ih.trans (ensureDirectory_adds h')
  | case5 ps hn h made around fault h' ih =>
    rw [around] at ih
    exact ih
  | case6 => exact .refl ..

variable {front : List String} {part : String} (hc : Path.check path = .ok ())
  (hp : Path.parts path = front ++ [part])

theorem locate_eq_walk (hc : Path.check path = .ok ()) :
    t.locate base path = t.walk (Path.origin base path) (Path.parts path) := by
  rw [locate, hc]
  rfl

theorem check_of_locate {r : Location} (h : t.locate base path = .ok r) : Path.check path = .ok () := by
  obtain ⟨⟨⟩, hc, -⟩ := exists_of_bind_eq_ok h
  exact hc

theorem readFile_of_locate {r : Location} {content : Bytes} (h : t.locate base path = .ok r)
    (hc : t.node? r = some (.file content)) : t.readFile base path = .ok content := by
  rw [readFile, h]
  simp only [bind, Except.bind, hc]
  rfl

theorem readFile_eq_error (h : ∀ r, t.locate base path = .ok r → ∀ content, t.node? r ≠ some (.file content)) :
    ∃ fault, t.readFile base path = .error fault := by
  cases hr : t.readFile base path with
  | error fault => exact ⟨fault, rfl⟩
  | ok content =>
    obtain ⟨r, hl, hn⟩ := exists_of_bind_eq_ok hr
    split at hn
    · next hc => exact absurd hc (h r hl _)
    · cases hn
    · cases hn

theorem look_of_locate {r : Location} (h : t.locate base path = .ok r) : t.look base path = t.node? r := by
  rw [look, h]

include hc hp

theorem createDirectory_eq (hm : part ≠ "") :
    t.createDirectory base path = t.walk (Path.origin base path) front >>= fun q =>
      if !t.isDirectory q then .error .notDirectory
      else if Path.isIdle part || part = ".." then .error .alreadyExists
      else if part.utf8ByteSize > Path.maxName then .error .nameTooLong
      else if (t.node? (q ++ [part])).isSome then .error .alreadyExists
      else .ok (t.put (q ++ [part]) .directory) := by
  rw [createDirectory, hc, hp]
  simp [hm]
  rfl

/-- Where a directory is, none is made. -/
theorem ensureDirectory_of_walk (hi : Path.isIdle part = false) {r : Location}
    (hw : t.walk (Path.origin base path) (front ++ [part]) = .ok r) (hr : t.isDirectory r = true) :
    t.ensureDirectory base path = .ok t := by
  have moves : part ≠ "" := by
    rintro rfl
    cases hi
  have there : t.look base path = some .directory := by
    rw [look_of_locate ((locate_eq_walk hc).trans (hp ▸ hw))]
    exact isDirectory_iff.mp hr
  rw [walk_append] at hw
  obtain ⟨q, hq, hw⟩ := exists_of_bind_eq_ok hw
  obtain ⟨hd, hcases⟩ := enter_cases (walk_singleton part ▸ hw)
  have exists' : t.createDirectory base path = .error .alreadyExists := by
    rw [createDirectory_eq hc hp moves, hq]
    show (if _ then _ else _) = _
    rw [hd, if_neg (by simp), hi]
    rcases hcases with hi' | hu | ⟨hn, hs⟩
    · rw [hi] at hi'
      cases hi'
    · rw [if_pos (by simp [hu])]
    · rw [if_neg (Nat.not_lt.mpr hn), if_pos hs, ite_self]
  rw [ensureDirectory, exists']
  exact if_pos there

/-- Where the directory around is missing, an entry is missed. -/
theorem ensureDirectory_eq_noEntry (hm : part ≠ "")
    (hw : t.walk (Path.origin base path) front = .error .noEntry) : t.ensureDirectory base path = .error .noEntry := by
  have missing : t.look base path = none := by
    rw [look, locate_eq_walk hc, hp, walk_append_of_error hw]
  rw [ensureDirectory, createDirectory_eq hc hp hm, hw, missing]
  rfl

section Name

variable {q : Location} (hn : Path.IsName part) (hq : t.walk (Path.origin base path) front = .ok q)
  (hd : t.isDirectory q = true)
include hn hq hd

theorem ensureDirectory_name (hf : ∀ content, t.node? (q ++ [part]) ≠ some (.file content)) :
    ∃ t', t.ensureDirectory base path = .ok t' ∧ Adds (· = q ++ [part]) t t' ∧ t'.isDirectory (q ++ [part]) = true := by
  cases hnode : t.node? (q ++ [part]) with
  | none =>
    refine ⟨_, ?_, adds_put hd hnode, ?_⟩
    · have made : t.createDirectory base path = .ok (t.put (q ++ [part]) .directory) := by
        rw [createDirectory_eq hc hp hn.1, hq]
        show (if _ then _ else _) = _
        rw [hd, if_neg (by simp), hn.not_isIdle, if_neg (by simp [hn.2.2.1]), if_neg (Nat.not_lt.mpr hn.2.2.2),
          hnode, if_neg (by simp)]
      rw [ensureDirectory, made]
    · rw [isDirectory_iff, node?_put (by simp), if_pos rfl]
  | some node =>
    cases node with
    | file content => exact absurd hnode (hf content)
    | directory =>
      have there := isDirectory_iff.mpr hnode
      have far : t.walk (Path.origin base path) (front ++ [part]) = .ok (q ++ [part]) := by
        rw [walk_append_of_ok hq, walk_singleton, enter_name hd hn, hnode]
        rfl
      exact ⟨t, ensureDirectory_of_walk hc hp hn.not_isIdle far there, .refl .., there⟩

/-- A file is made in a directory, unless a directory has its name. -/
theorem createFile_name (hf : t.isDirectory (q ++ [part]) = false) (content : Bytes) :
    t.createFile base path content = .ok (t.put (q ++ [part]) (.file content)) := by
  rw [createFile, hc, hp]
  have named : ((front ++ [part]).reverse.dropWhile (· == "")).reverse = front ++ [part] := by simp [hn.1]
  simp only [named, List.dropLast_concat, List.getLastD_concat]
  show (t.walk _ _ >>= fun q => _) = _
  rw [hq]
  show (if _ then _ else _) = _
  rw [hd, if_neg (by simp), hn.not_isIdle, if_neg (by simp [hn.2.2.1]), if_neg (Nat.not_lt.mpr hn.2.2.2), hf,
    if_neg (by simp)]
  rfl

end Name

omit hc hp in
/-- Where a path leads to a directory already, none is made on its way. -/
theorem ensureDirectories_of_locate {r : Location} (h : t.locate base path = .ok r) (hr : t.isDirectory r = true) :
    t.ensureDirectories base (Path.settled (Path.parts path)) = (.ok (), t) := by
  obtain ⟨⟨⟩, hc, hw⟩ := exists_of_bind_eq_ok h
  obtain ⟨idle, he, hi, hl⟩ := Path.settled_cases (Path.parts path)
  have absolute := Path.isAbsolute_ofParts_settled path
  have unslashed : Path.Unslashed (Path.settled (Path.parts path)) :=
    (Path.unslashed_append.mp (he ▸ Path.unslashed_parts path)).1
  rw [he] at hw
  have walked := walk_of_walk_append hi hw
  have whole : Path.ofParts (Path.settled (Path.parts path) ++ idle) = path := by rw [← he, Path.ofParts_parts]
  generalize Path.settled (Path.parts path) = ps at hl absolute unslashed walked whole
  rw [ensureDirectories]
  rcases hl with rfl | ⟨front, part, rfl, hm⟩
  · rw [dif_pos rfl]
  · have same := Path.parts_ofParts (by simp) unslashed
    have checked : Path.check (Path.ofParts (front ++ [part])) = .ok () := by
      apply Path.check_ofParts idle
      · rw [whole]
        exact hc
      · intro hz
        rw [hz] at same
        have last : part = "" := by
          have := congrArg List.getLast? same
          simpa [Path.parts] using this.symm
        rw [last] at hm
        cases hm
    rw [Path.origin, ← absolute (by simp)] at walked
    rw [dif_neg (by simp), ensureDirectory_of_walk checked same hm walked hr]

end Making

end Relata.FileTree
