import Relata.Proofs.Destinations
/-!
# Making directories from the left

The directories of a path are asked for from the right: first the whole path, and where it leads nowhere, the path of
the directory around. What comes of it is the same as making the directories from the left, one part after the other
(`ensureDirectories_append`), so all that is made is on the way of the path (`ensureDirectories_adds_passed`).
-/

namespace Relata

namespace Path

theorem check_ne_noEntry {path : String} (h : path ≠ "") : check path ≠ .error .noEntry := by
  rw [check, if_neg h]
  split_ifs <;> simp

theorem head?_of_isPrefix {ps qs : List String} (h : ps <+: qs) (hn : ps ≠ []) : ps.head? = qs.head? := by
  obtain ⟨rest, rfl⟩ := h
  obtain ⟨first, later, rfl⟩ := List.exists_cons_of_ne_nil hn
  rfl

theorem settled_isPrefix (ps : List String) : settled ps <+: ps := by
  obtain ⟨idle, he, -⟩ := settled_cases ps
  exact ⟨idle, he.symm⟩

theorem parent_isPrefix (ps : List String) : parent ps <+: ps :=
  ((settled_isPrefix _).trans (List.dropLast_prefix _)).trans (settled_isPrefix ps)

theorem settled_settled (ps : List String) : settled (settled ps) = settled ps := by
  obtain ⟨-, -, -, hl | ⟨front, part, he, hm⟩⟩ := settled_cases ps
  · rw [hl]
    rfl
  · rw [he, settled_append_of_not_isIdle front hm]

/-- Settled parts that are some end with one that moves. -/
theorem exists_of_settled {ps : List String} (hs : settled ps = ps) (hn : ps ≠ []) :
    ∃ front part, ps = front ++ [part] ∧ isIdle part = false := by
  obtain ⟨-, -, -, hl⟩ := settled_cases ps
  rw [hs] at hl
  exact hl.resolve_left hn

theorem isAbsolute_ofParts_of_settled {ps : List String} (hu : Unslashed ps) (hs : settled ps = ps) (hn : ps ≠ []) :
    isAbsolute (ofParts ps) = (ps.head? == some "") := by
  have some' : ps ≠ [""] := by
    rintro rfl
    cases hs
  rw [Bool.eq_iff_iff, isAbsolute_iff, parts_ofParts hn hu, beq_iff_eq]
  exact ⟨And.left, fun h => ⟨h, some'⟩⟩

/-- Parts of a path that can be asked for from a directory, and start where it is said. -/
structure Asked (base origin : Location) (ps : List String) : Prop where
  unslashed : Unslashed ps
  settled_eq : settled ps = ps
  origin_eq : ps ≠ [] → Path.origin base (ofParts ps) = origin

section Asked

variable {base o : Location} {front : List String} {part : String}

theorem Asked.parts_eq (h : Asked base o (front ++ [part])) : parts (ofParts (front ++ [part])) = front ++ [part] :=
  parts_ofParts (by simp) h.unslashed

/-- A path of no text has an empty part, and settled parts do not end with one. -/
theorem Asked.ofParts_ne_empty {ps : List String} (h : Asked base o ps) (hn : ps ≠ []) : ofParts ps ≠ "" := by
  intro he
  have same := parts_ofParts hn h.unslashed
  rw [he] at same
  have settled := h.settled_eq
  rw [← same] at settled
  cases settled

theorem Asked.not_isIdle (h : Asked base o (front ++ [part])) : isIdle part = false := by
  obtain ⟨front', part', he, hm⟩ := exists_of_settled h.settled_eq (by simp)
  obtain ⟨-, hp⟩ := List.append_inj' he rfl
  cases hp
  exact hm

theorem Asked.around (h : Asked base o (front ++ [part])) : Asked base o (settled front) where
  unslashed := by
    obtain ⟨rest, hr⟩ := (settled_isPrefix front).trans (List.prefix_append front [part])
    exact (unslashed_append.mp (hr ▸ h.unslashed)).1
  settled_eq := settled_settled front
  origin_eq hn := by
    obtain ⟨rest, hr⟩ := (settled_isPrefix front).trans (List.prefix_append front [part])
    have unslashed := (unslashed_append.mp (hr ▸ h.unslashed)).1
    have head := head?_of_isPrefix ⟨rest, hr⟩ hn
    rw [origin, isAbsolute_ofParts_of_settled unslashed (settled_settled front) hn, head,
      ← isAbsolute_ofParts_of_settled h.unslashed h.settled_eq (by simp)]
    exact h.origin_eq (by simp)

theorem Asked.check_around (h : Asked base o (front ++ [part])) (hc : check (ofParts (front ++ [part])) = .ok ())
    (hn : settled front ≠ []) : check (ofParts (settled front)) = .ok () := by
  obtain ⟨rest, hr⟩ := (settled_isPrefix front).trans (List.prefix_append front [part])
  exact check_ofParts rest (hr.symm ▸ hc) (h.around.ofParts_ne_empty hn)

/-- What holds of no parts and of parts that make no path, and of others if it does of those around them, holds of all
parts that can be asked for. -/
theorem Asked.induction {P : List String → Prop} (nil : P [])
    (refused : ∀ ps fault, Asked base o ps → ps ≠ [] → check (ofParts ps) = .error fault → P ps)
    (append : ∀ front part, Asked base o (front ++ [part]) → check (ofParts (front ++ [part])) = .ok ()
      → P (settled front) → P (front ++ [part])) {ps : List String} (h : Asked base o ps) : P ps := by
  induction hl : ps.length using Nat.strongRecOn generalizing ps with
  | ind n ih =>
    by_cases hn : ps = []
    · rwa [hn]
    · cases hc : check (ofParts ps) with
      | error fault => exact refused ps fault h hn hc
      | ok =>
        obtain ⟨front, part, rfl, -⟩ := exists_of_settled h.settled_eq hn
        have shorter : (settled front).length < n := by
          have := length_settled_le front
          rw [List.length_append, List.length_singleton] at hl
          omega
        exact append front part h hc (ih _ shorter h.around rfl)

/-- The directories around a path can be asked for from where the path starts. -/
theorem asked_parent (base : Location) (path : String) : Asked base (origin base path) (parent (parts path)) where
  unslashed := by
    obtain ⟨rest, hr⟩ := parent_isPrefix (parts path)
    exact (unslashed_append.mp (hr ▸ unslashed_parts path)).1
  settled_eq := settled_settled _
  origin_eq hn := by
    obtain ⟨rest, hr⟩ := parent_isPrefix (parts path)
    have unslashed := (unslashed_append.mp (hr ▸ unslashed_parts path)).1
    have head := head?_of_isPrefix (parent_isPrefix (parts path)) hn
    have more : parts path ≠ [""] := by
      intro he
      rw [he] at hn
      exact hn rfl
    have same : isAbsolute (ofParts (parent (parts path))) = isAbsolute path := by
      rw [isAbsolute_ofParts_of_settled unslashed (settled_settled _) hn, head, Bool.eq_iff_iff, beq_iff_eq,
        isAbsolute_iff]
      exact ⟨fun h => ⟨h, more⟩, And.left⟩
    rw [origin, same, origin]

end Asked

end Path

namespace FileTree

open Relata.Path (follow destination TurnsBack Passes Asked)

variable {t t' : FileTree} {base o q : Location} {front ps : List String} {part : String}

/-! ## One directory -/

/-- The tree with a directory where a part leads to from a directory, unless one is there. -/
def ensureEntry (t : FileTree) (q : Location) (part : String) : Except PathFault FileTree :=
  if !t.isDirectory q then .error .notDirectory
  else if part = ".." then .ok t
  else if part.utf8ByteSize > Path.maxName then .error .nameTooLong
  else match t.node? (q ++ [part]) with
    | none => .ok (t.put (q ++ [part]) .directory)
    | some .directory => .ok t
    | some (.file _) => .error .alreadyExists

theorem ensureEntry_of_name (hd : t.isDirectory q = true) (hu : part ≠ "..") (hn : ¬part.utf8ByteSize > Path.maxName) :
    t.ensureEntry q part
      = match t.node? (q ++ [part]) with
        | none => .ok (t.put (q ++ [part]) .directory)
        | some .directory => .ok t
        | some (.file _) => .error .alreadyExists := by
  rw [ensureEntry, hd, if_neg (by simp), if_neg hu, if_neg hn]

section Asked

variable (ht : t.WellFormed) (ha : Asked base o (front ++ [part])) (hc : Path.check (Path.ofParts (front ++ [part])) = .ok ())
include ht ha hc

/-- A directory is asked for in the directory around. -/
theorem ensureDirectory_eq :
    t.ensureDirectory base (Path.ofParts (front ++ [part])) = t.walk o front >>= fun q => t.ensureEntry q part := by
  have hi := ha.not_isIdle
  have moves : part ≠ "" := by
    rintro rfl
    cases hi
  have origin := ha.origin_eq (by simp)
  have created : t.createDirectory base _ = _ := createDirectory_eq hc ha.parts_eq moves
  have located : t.locate base _ = _ := locate_eq_walk hc
  rw [origin] at created located
  rw [ha.parts_eq] at located
  cases hw : t.walk o front with
  | error fault =>
    have missing : t.look base (Path.ofParts (front ++ [part])) = none := by
      rw [look, located, walk_append_of_error hw]
    rw [ensureDirectory, created, hw, missing]
    rfl
  | ok q =>
    rw [walk_append_of_ok hw, walk_singleton] at located
    rw [hw] at created
    show t.ensureDirectory base _ = t.ensureEntry q part
    rw [ensureDirectory, created, look, located]
    simp only [bind, Except.bind, hi]
    by_cases hd : t.isDirectory q = true
    · by_cases hu : part = ".."
      · subst hu
        have up : t.enter q ".." = .ok q.dropLast := by
          rw [enter, hd]
          rfl
        have there := isDirectory_iff.mp (ht.isDirectory_dropLast (isSome_of_isDirectory hd))
        simp [ensureEntry, hd, up, there]
      · have down := enter_part hd (by simp [hi]) hu
        rw [down]
        by_cases hl : part.utf8ByteSize > Path.maxName
        · simp [ensureEntry, hd, hu, hl]
        · cases hn : t.node? (q ++ [part]) with
          | none => simp [ensureEntry, hd, hu, hl, hn]
          | some node => cases node <;> simp [ensureEntry, hd, hu, hl, hn]
    · have blocked : t.enter q part = .error .notDirectory := by
        rw [enter]
        simp [hd]
      simp [ensureEntry, hd, blocked]

end Asked

theorem ensureEntry_ne_noEntry (t : FileTree) (q : Location) (part : String) : t.ensureEntry q part ≠ .error .noEntry := by
  unfold ensureEntry
  split_ifs
  · simp
  · simp
  · simp
  · split <;> simp

theorem enter_of_isDirectory {tree : FileTree} (hi : Path.isIdle part = false) (hu : part ≠ "..")
    (hn : ¬part.utf8ByteSize > Path.maxName) (hd : tree.isDirectory q = true)
    (he : tree.isDirectory (q ++ [part]) = true) :
    tree.enter q part = .ok (follow q part) ∧ tree.isDirectory (follow q part) = true := by
  have moves : ¬Path.isIdle part = true := by simp [hi]
  rw [enter_part hd moves hu, if_neg hn, isDirectory_iff.mp he, follow, if_neg moves, if_neg hu]
  exact ⟨rfl, he⟩

/-- A directory that has been asked for is there afterwards. -/
theorem enter_of_ensureEntry (ht : t.WellFormed) (hi : Path.isIdle part = false) {made : FileTree}
    (h : t.ensureEntry q part = .ok made) :
    t.isDirectory q = true ∧ made.enter q part = .ok (follow q part) ∧ made.isDirectory (follow q part) = true := by
  unfold ensureEntry at h
  split at h
  · cases h
  · next hd =>
    have hd : t.isDirectory q = true := by simpa using hd
    split at h
    · next hu =>
      cases h
      subst hu
      refine ⟨hd, ?_, ht.isDirectory_dropLast (isSome_of_isDirectory hd)⟩
      rw [enter, hd]
      rfl
    · next hu =>
      split at h
      · cases h
      · next hn =>
        split at h
        · next absent =>
          cases h
          have free : t.isDirectory (q ++ [part]) = false := by rw [isDirectory, absent]; rfl
          have kept := isDirectory_put free (by simp) .directory hd
          have made : (t.put (q ++ [part]) .directory).isDirectory (q ++ [part]) = true := by
            rw [isDirectory_iff, node?_put (by simp), if_pos rfl]
          exact ⟨hd, enter_of_isDirectory hi hu hn kept made⟩
        · next there =>
          cases h
          exact ⟨hd, enter_of_isDirectory hi hu hn hd (isDirectory_iff.mpr there)⟩
        · cases h

theorem ensureEntry_adds {made : FileTree} (hi : Path.isIdle part = false) (h : t.ensureEntry q part = .ok made) :
    Adds (· = follow q part) t made := by
  unfold ensureEntry at h
  split at h
  · cases h
  · next hd =>
    split at h
    · cases h
      exact .refl ..
    · next hu =>
      split at h
      · cases h
      · split at h
        · next absent =>
          cases h
          rw [follow, if_neg (by simp [hi]), if_neg hu]
          exact adds_put (by simpa using hd) absent
        · cases h
          exact .refl ..
        · cases h

/-! ## Directories in a row -/

/-- The tree after an attempt: what was made, or else the tree as it was. -/
def attempted (t : FileTree) : Except PathFault FileTree → Except PathFault Unit × FileTree
  | .ok made => (.ok (), made)
  | .error fault => (.error fault, t)

theorem walk_of_ensureDirectory (ht : t.WellFormed) (ha : Asked base o (front ++ [part]))
    (hc : Path.check (Path.ofParts (front ++ [part])) = .ok ()) {made : FileTree}
    (h : t.ensureDirectory base (Path.ofParts (front ++ [part])) = .ok made) :
    made.walk o (front ++ [part]) = .ok (destination o (front ++ [part]))
      ∧ made.isDirectory (destination o (front ++ [part])) = true := by
  rw [ensureDirectory_eq ht ha hc] at h
  obtain ⟨q, hw, he⟩ := exists_of_bind_eq_ok h
  obtain ⟨hd, entered, there⟩ := enter_of_ensureEntry ht ha.not_isIdle he
  have reached := walk_mono (ensureEntry_adds ha.not_isIdle he).isDirectory hw hd
  rw [walk_append_of_ok reached, walk_singleton, entered, Path.destination_append, walk_eq_destination hw]
  exact ⟨rfl, walk_eq_destination hw ▸ there⟩

theorem ensureDirectories_nil (t : FileTree) (base : Location) : t.ensureDirectories base [] = (.ok (), t) := by
  rw [ensureDirectories, dif_pos rfl]

/-- Only a missing entry makes the directories around be asked for. -/
theorem ensureDirectories_of_error {fault : PathFault} (hn : ps ≠ []) (hf : fault ≠ .noEntry)
    (h : t.ensureDirectory base (Path.ofParts ps) = .error fault) : t.ensureDirectories base ps = (.error fault, t) := by
  rw [ensureDirectories, dif_neg hn, h]
  cases fault <;> first | rfl | exact absurd rfl hf

theorem ensureDirectories_of_check {fault : PathFault} (hs : Asked base o ps) (hn : ps ≠ [])
    (hc : Path.check (Path.ofParts ps) = .error fault) : t.ensureDirectories base ps = (.error fault, t) := by
  have created : t.createDirectory base (Path.ofParts ps) = .error fault := by
    rw [createDirectory, hc]
    rfl
  have missing : t.look base (Path.ofParts ps) = none := by
    rw [look, locate, hc]
    rfl
  apply ensureDirectories_of_error hn
  · rintro rfl
    exact Path.check_ne_noEntry (hs.ofParts_ne_empty hn) hc
  · rw [ensureDirectory, created, missing]
    rfl

/-- The directories that have been asked for are there afterwards. -/
theorem walk_of_ensureDirectories (ht : t.WellFormed) (ho : t.isDirectory o = true) (ha : Asked base o ps)
    {made : FileTree} (h : t.ensureDirectories base ps = (.ok (), made)) :
    made.walk o ps = .ok (destination o ps) ∧ made.isDirectory (destination o ps) = true := by
  by_cases hn : ps = []
  · subst hn
    rw [ensureDirectories_nil] at h
    cases h
    exact ⟨rfl, ho⟩
  · have hc : Path.check (Path.ofParts ps) = .ok () := by
      cases hc : Path.check (Path.ofParts ps) with
      | ok => rfl
      | error fault =>
        rw [ensureDirectories_of_check ha hn hc] at h
        cases h
    obtain ⟨front, part, rfl, -⟩ := Path.exists_of_settled ha.settled_eq hn
    rw [ensureDirectories, dif_neg hn] at h
    split at h
    · next first =>
      cases h
      exact walk_of_ensureDirectory ht ha hc first
    · have adds := t.ensureDirectories_adds base (Path.parent (front ++ [part]))
      split at h
      · cases h
      · next around =>
        rw [around] at adds
        split at h
        · next second =>
          cases h
          exact walk_of_ensureDirectory (adds.wellFormed ht) ha hc second
        · cases h
    · cases h

/-- A walk is stopped by a file, before its end or at it. -/
def StoppedByFile (t : FileTree) (o : Location) (front : List String) : Prop :=
  t.walk o front = .error .notDirectory ∨ ∃ q, t.walk o front = .ok q ∧ t.isDirectory q = false

/-- Where directories are, none are made. -/
theorem ensureDirectories_of_walk (ha : Asked base o ps) (hc : ps ≠ [] → Path.check (Path.ofParts ps) = .ok ())
    (hw : t.walk o ps = .ok q) (hd : t.isDirectory q = true) : t.ensureDirectories base ps = (.ok (), t) := by
  rw [ensureDirectories]
  by_cases hn : ps = []
  · rw [dif_pos hn]
  · rw [dif_neg hn]
    obtain ⟨front, part, rfl, hi⟩ := Path.exists_of_settled ha.settled_eq hn
    rw [ensureDirectory_of_walk (hc hn) ha.parts_eq hi ((ha.origin_eq hn).symm ▸ hw) hd]

theorem ensureDirectories_of_nameTooLong (ht : t.WellFormed) (ha : Asked base o ps)
    (hc : ps ≠ [] → Path.check (Path.ofParts ps) = .ok ()) (hw : t.walk o ps = .error .nameTooLong) :
    t.ensureDirectories base ps = (.error .nameTooLong, t) := by
  have hn : ps ≠ [] := by
    rintro rfl
    cases hw
  obtain ⟨front, part, rfl, hi⟩ := Path.exists_of_settled ha.settled_eq hn
  have long : t.ensureDirectory base (Path.ofParts (front ++ [part])) = .error .nameTooLong := by
    rw [ensureDirectory_eq ht ha (hc hn)]
    rw [walk_append] at hw
    cases hf : t.walk o front with
    | error fault =>
      rw [hf] at hw
      rw [show fault = .nameTooLong from Except.error.inj hw]
      rfl
    | ok q =>
      rw [hf] at hw
      change t.walk q [part] = _ at hw
      rw [walk_singleton, enter] at hw
      show t.ensureEntry q part = _
      unfold ensureEntry
      split_ifs at hw ⊢ <;> first | rfl | cases hw
  exact ensureDirectories_of_error hn (by simp) long

theorem walk_settled_of_nameTooLong (h : t.walk o front = .error .nameTooLong) :
    t.walk o (Path.settled front) = .error .nameTooLong := by
  obtain ⟨idle, he, hi, -⟩ := Path.settled_cases front
  rw [he, walk_append] at h
  cases hs : t.walk o (Path.settled front) with
  | error fault =>
    rw [hs] at h
    exact h
  | ok q =>
    rw [hs] at h
    change t.walk q idle = _ at h
    obtain hw | hw := t.walk_idle_cases q hi <;> rw [hw] at h <;> cases h

theorem walk_of_settled (h : t.walk o (Path.settled front) = .ok q) (hd : t.isDirectory q = true) :
    t.walk o front = .ok q := by
  obtain ⟨idle, he, hi, -⟩ := Path.settled_cases front
  have whole := walk_append_of_ok h idle
  rw [← he, walk_idle hd hi] at whole
  exact whole

theorem destination_settled (o : Location) (front : List String) :
    destination o (Path.settled front) = destination o front := by
  obtain ⟨idle, he, hi, -⟩ := Path.settled_cases front
  conv_rhs => rw [he, Path.destination_append, Path.destination_idle hi]

/-- What making directories comes to, from the left: those around first, then the last one. A walk that a file stops
is given up at once. -/
theorem ensureDirectories_append (ht : t.WellFormed) (ho : t.isDirectory o = true) (ha : Asked base o (front ++ [part]))
    (hc : Path.check (Path.ofParts (front ++ [part])) = .ok ()) :
    (t.StoppedByFile o front → t.ensureDirectories base (front ++ [part]) = (.error .notDirectory, t))
      ∧ (¬t.StoppedByFile o front → t.ensureDirectories base (front ++ [part])
        = match t.ensureDirectories base (Path.settled front) with
          | (.error fault, made) => (.error fault, made)
          | (.ok (), made) => made.attempted (made.ensureEntry (destination o front) part)) := by
  have hn : front ++ [part] ≠ [] := by simp
  have first := ensureDirectory_eq ht ha hc
  have around := Path.parent_append front ha.not_isIdle
  have checked := ha.check_around hc
  constructor
  · intro stopped
    apply ensureDirectories_of_error hn (by simp)
    obtain hw | ⟨q, hw, hd⟩ := stopped
    · rw [first, hw]
      rfl
    · rw [first, hw]
      show t.ensureEntry q part = _
      rw [ensureEntry, hd]
      rfl
  · intro free
    cases hw : t.walk o front with
    | error fault =>
      rw [hw] at first
      change t.ensureDirectory base _ = .error fault at first
      obtain rfl | rfl | rfl := walk_eq_error hw
      · exact absurd (.inl hw) free
      · rw [ensureDirectories_of_error hn (by simp) first,
          ensureDirectories_of_nameTooLong ht ha.around checked (walk_settled_of_nameTooLong hw)]
      · rw [ensureDirectories, dif_neg hn, first, around]
        dsimp only
        cases hr : t.ensureDirectories base (Path.settled front) with
        | mk result made =>
          cases result with
          | error fault => rfl
          | ok =>
            -- The directories around have been made, so the last one is asked for in a directory.
            have reached : made.walk o front = .ok (destination o front) := by
              obtain ⟨walked, there⟩ := walk_of_ensureDirectories ht ho ha.around hr
              rw [destination_settled] at walked there
              exact walk_of_settled walked there
            have adds := t.ensureDirectories_adds base (Path.settled front)
            rw [hr] at adds
            have second := ensureDirectory_eq (adds.wellFormed ht) ha hc
            rw [reached] at second
            change made.ensureDirectory base _ = made.ensureEntry (destination o front) part at second
            dsimp only
            rw [second]
            cases made.ensureEntry (destination o front) part <;> rfl
    | ok q =>
      have hd : t.isDirectory q = true := by
        by_contra hd
        exact free (.inr ⟨q, hw, by simpa using hd⟩)
      obtain ⟨idle, he, hi, -⟩ := Path.settled_cases front
      have settled := walk_of_walk_append hi (he ▸ hw)
      rw [hw, walk_eq_destination hw] at first
      change t.ensureDirectory base _ = t.ensureEntry (destination o front) part at first
      rw [ensureDirectories, dif_neg hn, first, ensureDirectories_of_walk ha.around checked settled hd]
      show _ = t.attempted (t.ensureEntry (destination o front) part)
      have known := t.ensureEntry_ne_noEntry (destination o front) part
      cases hr : t.ensureEntry (destination o front) part with
      | ok made => rfl
      | error fault =>
        rw [hr] at known
        cases fault <;> first | rfl | exact absurd rfl known

theorem StoppedByFile.settled (h : t.StoppedByFile o front) : t.StoppedByFile o (Path.settled front) := by
  cases hs : t.walk o (Path.settled front) with
  | error fault =>
    obtain ⟨idle, he, -, -⟩ := Path.settled_cases front
    have whole := walk_append_of_error hs idle
    rw [← he] at whole
    rw [StoppedByFile, whole] at h
    obtain hf | ⟨q, hq, -⟩ := h
    · exact .inl (hs.trans hf)
    · cases hq
  | ok q =>
    cases hd : t.isDirectory q with
    | false => exact .inr ⟨q, hs, hd⟩
    | true =>
      rw [StoppedByFile, walk_of_settled hs hd] at h
      obtain hf | ⟨r, hr, hn⟩ := h
      · cases hf
      · rw [← Except.ok.inj hr, hd] at hn
        cases hn

/-- Where a walk is stopped by a file, no directories are made. -/
theorem StoppedByFile.ensureDirectories_eq (h : t.StoppedByFile o ps) (ht : t.WellFormed) (ho : t.isDirectory o = true)
    (ha : Asked base o ps) : ∃ fault, t.ensureDirectories base ps = (.error fault, t) := by
  have hn : ps ≠ [] := by
    rintro rfl
    obtain hf | ⟨q, hq, hd⟩ := h
    · cases hf
    · rw [← Except.ok.inj hq, ho] at hd
      cases hd
  cases hc : Path.check (Path.ofParts ps) with
  | error fault => exact ⟨fault, ensureDirectories_of_check ha hn hc⟩
  | ok =>
    obtain ⟨front, part, rfl, hi⟩ := Path.exists_of_settled ha.settled_eq hn
    have asked := ensureDirectory_eq ht ha hc
    cases hw : t.walk o front with
    | error fault =>
      rw [StoppedByFile, walk_append_of_error hw] at h
      obtain hf | ⟨q, hq, -⟩ := h
      · cases hf
        rw [hw] at asked
        exact ⟨.notDirectory, ensureDirectories_of_error hn (by simp) asked⟩
      · cases hq
    | ok q =>
      rw [StoppedByFile, walk_append_of_ok hw, walk_singleton] at h
      rw [hw] at asked
      change t.ensureDirectory base _ = t.ensureEntry q part at asked
      have known := t.ensureEntry_ne_noEntry q part
      cases he : t.ensureEntry q part with
      | error fault =>
        rw [he] at asked known
        exact ⟨fault, ensureDirectories_of_error hn (fun hf => known (by rw [hf])) asked⟩
      | ok made =>
        -- A directory that can be made, or is there, stops no walk.
        obtain ⟨hd, -, there⟩ := enter_of_ensureEntry ht hi he
        exfalso
        obtain hf | ⟨r, hr, file⟩ := h
        · exact enter_ne_notDirectory hd part hf
        · rw [← enter_eq_follow hr] at there
          obtain same | ⟨absent, -, -⟩ := (ensureEntry_adds hi he).node?_eq r
          · rw [isDirectory, same] at there
            rw [isDirectory, there] at file
            cases file
          · exact Option.not_isSome_iff_eq_none.mpr absent (isSome_of_enter ht hr)

/-- All directories that are made are on the way of the path. -/
theorem ensureDirectories_adds_passed (ht : t.WellFormed) (ho : t.isDirectory o = true) (hs : Asked base o ps) :
    Adds (fun q => Passes (· = q) o ps) t (t.ensureDirectories base ps).2 := by
  refine Asked.induction (P := fun ps => Adds (fun q => Passes (· = q) o ps) t (t.ensureDirectories base ps).2)
    ?_ ?_ ?_ hs
  · rw [ensureDirectories_nil]
    exact .refl ..
  · intro ps fault hs hn hc
    rw [ensureDirectories_of_check hs hn hc]
    exact .refl ..
  · intro front part hs hc ih
    obtain ⟨stopped, goes⟩ := ensureDirectories_append ht ho hs hc
    by_cases hst : t.StoppedByFile o front
    · rw [stopped hst]
      exact .refl ..
    · have around := ih.mono fun q =>
        Passes.extend ((Path.settled_isPrefix front).trans (List.prefix_append front [part]))
      rw [goes hst]
      cases hr : t.ensureDirectories base (Path.settled front) with
      | mk result made =>
        rw [hr] at around
        cases result with
        | error fault => exact around
        | ok =>
          dsimp only
          cases he : made.ensureEntry (destination o front) part with
          | error fault => exact around
          | ok last =>
            refine around.trans ((ensureEntry_adds hs.not_isIdle he).mono fun q hq => ?_)
            exact Path.passes_append.mpr (.inr (.inl hq.symm))

end FileTree

end Relata
