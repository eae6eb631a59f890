import Relata.Proofs.MadeDirectories
/-!
# Further directories

Two file trees, one of which has further empty directories. A path that does not pass those leads to the same place in
both (`walk_congr`), and one that does not turn back at them leads to the same place unless it leads to one of them or
nowhere (`walk_alike`). Making the directories of a path comes to the same, and leaves two such trees
(`ensureDirectories_alike`), and so does creating a file (`createFile_alike`).
-/

namespace Relata.FileTree

open Relata.Path (follow destination TurnsBack Passes Asked)

variable {t t' : FileTree} {base l o q r : Location} {front ps : List String} {part : String}

/-! ## Walking -/

/-- A directory of one tree where the other has nothing. -/
def Leftover (t t' : FileTree) (q : Location) : Prop := t.node? q = none ∧ t'.node? q = some .directory

instance (t t' : FileTree) : DecidablePred (Leftover t t') := fun _ => instDecidableAnd

theorem Leftover.not_isSome {q : Location} (h : Leftover t t' q) : ¬(t.node? q).isSome = true := by
  rw [h.1]
  nofun

section Further

variable {left : Location → Prop} (ha : Adds left t t')
include ha

theorem Adds.node?_eq_of_not {q : Location} (hq : ¬Leftover t t' q) : t'.node? q = t.node? q :=
  (ha.node?_eq q).resolve_right fun ⟨hn, hd, _⟩ => hq ⟨hn, hd⟩

theorem Adds.left_of_leftover {q : Location} (hq : Leftover t t' q) : left q := by
  obtain he | ⟨-, -, hl⟩ := ha.node?_eq q
  · have none : t'.node? q = none := he.trans hq.1
    rw [hq.2] at none
    cases none
  · exact hl

theorem Adds.node?_eq_of_isSome {q : Location} (hs : (t.node? q).isSome = true) : t'.node? q = t.node? q :=
  ha.node?_eq_of_not fun hq => hq.not_isSome hs

/-- Said of further directories, whatever was said of them before. -/
theorem Adds.leftover : Adds (Leftover t t') t t' where
  node?_eq q := (ha.node?_eq q).imp id fun ⟨hn, hd, _⟩ => ⟨hn, hd, hn, hd⟩
  wellFormed := ha.wellFormed

theorem Adds.filesBelow_perm (ht : t.WellFormed) (l : Location) : (t'.filesBelow l).Perm (t.filesBelow l) := by
  have ht' := ha.wellFormed ht
  apply (List.perm_ext_iff_of_nodup (ht'.nodup_filesBelow l) (ht.nodup_filesBelow l)).mpr
  intro ps
  rw [ht'.mem_filesBelow, ht.mem_filesBelow]
  exact exists_congr fun content => ha.file_iff (l ++ ps) content

theorem enter_congr {part : String} (hl : (t.node? l).isSome = true) (hf : ¬Leftover t t' (follow l part)) :
    t'.enter l part = t.enter l part := by
  have here := ha.node?_eq_of_isSome hl
  have there := ha.node?_eq_of_not hf
  unfold enter isDirectory
  unfold follow at there
  rw [here]
  split_ifs at there ⊢ <;> simp_all

/-- A path that passes no further directory leads to the same place. -/
theorem walk_congr (ht : t.WellFormed) (hl : (t.node? l).isSome = true) (hp : ¬Passes (Leftover t t') l ps) :
    t'.walk l ps = t.walk l ps := by
  induction ps generalizing l with
  | nil => rfl
  | cons part ps ih =>
    rw [Passes, not_or] at hp
    rw [walk, walk, List.foldlM_cons, List.foldlM_cons, enter_congr ha hl hp.1]
    cases he : t.enter l part with
    | error fault => rfl
    | ok q =>
      refine ih (isSome_of_enter ht he) ?_
      rw [enter_eq_follow he]
      exact hp.2

theorem enter_leftover (ht : t.WellFormed) (hl : Leftover t t' l) {part : String} (hu : part ≠ "..") :
    t'.enter l part ≠ .error .notDirectory ∧ ∀ r, t'.enter l part = .ok r → Leftover t t' r := by
  refine ⟨enter_ne_notDirectory (isDirectory_iff.mpr hl.2) part, ?_⟩
  intro r he
  rw [enter_eq_follow he, follow]
  by_cases hi : Path.isIdle part = true
  · rwa [if_pos hi]
  · rw [if_neg hi, if_neg hu]
    have absent := ht.node?_append_eq_none hl.1 [part]
    obtain ⟨-, hs⟩ := ((enter_cases he).2.resolve_left hi).resolve_left hu
    obtain same | ⟨hn, hf, -⟩ := ha.node?_eq (l ++ [part])
    · rw [same, absent] at hs
      cases hs
    · exact ⟨hn, hf⟩

/-- Among further directories nothing is found but further directories. -/
theorem walk_leftover (ht : t.WellFormed) (hl : Leftover t t' l) (hb : ¬TurnsBack left l ps) :
    t'.walk l ps ≠ .error .notDirectory ∧ ∀ r, t'.walk l ps = .ok r → Leftover t t' r := by
  induction ps generalizing l with
  | nil =>
    constructor
    · intro h
      cases h
    · intro r h
      rwa [← Except.ok.inj h]
  | cons part ps ih =>
    rw [TurnsBack, not_or] at hb
    obtain ⟨directory, further⟩ := enter_leftover ha ht hl fun hu => hb.1 ⟨hu, ha.left_of_leftover hl⟩
    rw [walk, List.foldlM_cons]
    cases he : t'.enter l part with
    | error fault =>
      constructor
      · intro hw
        apply directory
        rw [he, Except.error.inj hw]
      · intro r hw
        cases hw
    | ok q => exact ih (further q he) (enter_eq_follow he ▸ hb.2)

/-- One part leads to the same place, unless it is the name of a further directory. -/
theorem enter_alike (ht : t.WellFormed) (hl : (t.node? l).isSome = true) (part : String) :
    t'.enter l part = t.enter l part
      ∨ t.enter l part = .error .noEntry ∧ t'.enter l part = .ok (follow l part) ∧ Leftover t t' (follow l part) := by
  by_cases hf : Leftover t t' (follow l part)
  · have name : ¬Path.isIdle part = true ∧ part ≠ ".." := by
      constructor
      · intro hi
        rw [Path.follow_idle hi] at hf
        exact hf.not_isSome hl
      · rintro rfl
        have around := isSome_of_isDirectory (ht.isDirectory_dropLast hl)
        exact Leftover.not_isSome (show Leftover t t' l.dropLast from hf) around
    obtain ⟨hi, hu⟩ := name
    have here : follow l part = l ++ [part] := by rw [follow, if_neg hi, if_neg hu]
    rw [here] at hf ⊢
    -- What has something below it is a directory, in both trees.
    have hd' : t'.isDirectory l = true := (ha.wellFormed ht).inside l part (by rw [hf.2]; rfl)
    have hd : t.isDirectory l = true := by rw [isDirectory, ← ha.node?_eq_of_isSome hl]; exact hd'
    rw [enter_part hd hi hu, enter_part hd' hi hu, hf.1, hf.2]
    by_cases hn : part.utf8ByteSize > Path.maxName
    · rw [if_pos hn, if_pos hn]
      exact .inl rfl
    · rw [if_neg hn, if_neg hn]
      exact .inr ⟨rfl, rfl, hf⟩
  · exact .inl (enter_congr ha hl hf)

/-- A path leads to the same place, unless an entry is missed on its way in the one tree. If it does not turn back at
further directories, it leads then to nothing else in the other. -/
theorem walk_alike (ht : t.WellFormed) (hl : (t.node? l).isSome = true) (ps : List String) :
    t'.walk l ps = t.walk l ps
      ∨ t.walk l ps = .error .noEntry
        ∧ (¬TurnsBack left l ps → t'.walk l ps ≠ .error .notDirectory ∧ ∀ r, t'.walk l ps = .ok r → Leftover t t' r) := by
  induction ps generalizing l with
  | nil => exact .inl rfl
  | cons part ps ih =>
    rw [TurnsBack, not_or, walk, walk, List.foldlM_cons, List.foldlM_cons]
    obtain same | ⟨missed, found, hf⟩ := enter_alike ha ht hl part
    · rw [same]
      cases he : t.enter l part with
      | error fault => exact .inl rfl
      | ok q =>
        obtain same | ⟨missed, further⟩ := ih (isSome_of_enter ht he)
        · exact .inl same
        · refine .inr ⟨missed, fun hb => further ?_⟩
          rw [enter_eq_follow he]
          exact hb.2
    · rw [missed, found]
      exact .inr ⟨rfl, fun hb => walk_leftover ha ht hf hb.2⟩

end Further

/-! ## Making directories and files -/

section Further

variable {left : Location → Prop} (ha : Adds left t t') (ht : t.WellFormed)
include ha ht

omit ht in
/-- The same node is put in both trees. -/
theorem Adds.put {l : Location} (hl : l ≠ []) (node : Node) (hw : (t'.put l node).WellFormed) :
    Adds left (t.put l node) (t'.put l node) where
  node?_eq q := by
    rw [node?_put hl, node?_put hl]
    by_cases hq : q = l
    · simp [hq]
    · rw [if_neg hq, if_neg hq]
      exact ha.node?_eq q
  wellFormed _ := hw

omit ht in
/-- The same node is taken away in both trees. -/
theorem Adds.erase {l : Location} (hl : l ≠ []) (hw : (FileTree.mk (Entries.erase l t'.nodes)).WellFormed) :
    Adds left ⟨Entries.erase l t.nodes⟩ ⟨Entries.erase l t'.nodes⟩ where
  node?_eq q := by
    rw [node?_erase hl, node?_erase hl]
    by_cases hq : q = l
    · rw [if_pos hq, if_pos hq]
      exact .inl rfl
    · rw [if_neg hq, if_neg hq]
      exact ha.node?_eq q
  wellFormed _ := hw

/-- A directory that is made in the one tree is there in the other, or is made there too. -/
theorem ensureEntry_alike (hd : t.isDirectory q = true) (part : String) :
    (∃ fault, t.ensureEntry q part = .error fault ∧ t'.ensureEntry q part = .error fault)
      ∨ ∃ made made', t.ensureEntry q part = .ok made ∧ t'.ensureEntry q part = .ok made' ∧ Adds left made made' := by
  have hd' := ha.isDirectory q hd
  by_cases hu : part = ".."
  · exact .inr ⟨t, t', by simp [ensureEntry, hd, hu], by simp [ensureEntry, hd', hu], ha⟩
  · by_cases hn : part.utf8ByteSize > Path.maxName
    · exact .inl ⟨.nameTooLong, by simp [ensureEntry, hd, hu, hn], by simp [ensureEntry, hd', hu, hn]⟩
    · rw [ensureEntry_of_name hd hu hn, ensureEntry_of_name hd' hu hn]
      obtain same | ⟨absent, there, hl⟩ := ha.node?_eq (q ++ [part])
      · rw [same]
        cases hnode : t.node? (q ++ [part]) with
        | none =>
          refine .inr ⟨_, _, rfl, rfl, ha.put (by simp) .directory ?_⟩
          exact (ha.wellFormed ht).put hd' fun _ => rfl
        | some node =>
          cases node with
          | directory => exact .inr ⟨t, t', rfl, rfl, ha⟩
          | file content => exact .inl ⟨.alreadyExists, rfl, rfl⟩
      · rw [absent, there]
        refine .inr ⟨_, _, rfl, rfl, ?_, fun _ => ha.wellFormed ht⟩
        intro p
        rw [node?_put (by simp)]
        by_cases hp : p = q ++ [part]
        · rw [if_pos hp, hp, there]
          exact .inl rfl
        · rw [if_neg hp]
          exact ha.node?_eq p

/-- A file that stops a walk stops it in the other tree as well. -/
theorem StoppedByFile.further (ho : t.isDirectory o = true) (h : t.StoppedByFile o front) : t'.StoppedByFile o front := by
  have hs := isSome_of_isDirectory ho
  obtain same | ⟨missed, -⟩ := walk_alike ha ht hs front
  · rw [StoppedByFile, same]
    obtain hw | ⟨q, hw, hd⟩ := h
    · exact .inl hw
    · have node := ha.node?_eq_of_isSome (isSome_walk ht hs hw)
      rw [isDirectory, ← node] at hd
      exact .inr ⟨q, hw, hd⟩
  · rw [StoppedByFile, missed] at h
    simp at h

theorem StoppedByFile.back (ho : t.isDirectory o = true) (hb : ¬TurnsBack left o front) (h : t'.StoppedByFile o front) :
    t.StoppedByFile o front := by
  have hs := isSome_of_isDirectory ho
  obtain same | ⟨-, further⟩ := walk_alike ha ht hs front
  · rw [StoppedByFile, same] at h
    obtain hw | ⟨q, hw, hd⟩ := h
    · exact .inl hw
    · have node := ha.node?_eq_of_isSome (isSome_walk ht hs hw)
      rw [isDirectory, node] at hd
      exact .inr ⟨q, hw, hd⟩
  · obtain ⟨passed, further⟩ := further hb
    obtain hw | ⟨q, hw, hd⟩ := h
    · exact absurd hw passed
    · rw [isDirectory, (further q hw).2] at hd
      cases hd

/-- Making the directories of a path comes to the same in both trees: one is then still the other with further
directories. -/
structure MadeAlike (left : Location → Prop) (t t' : FileTree) (base o : Location) (ps : List String) : Prop where
  adds : Adds left (t.ensureDirectories base ps).2 (t'.ensureDirectories base ps).2
  toOption_eq : (t.ensureDirectories base ps).1.toOption = (t'.ensureDirectories base ps).1.toOption
  /-- A path that turns back at a further directory may be refused for another reason. -/
  eq : ¬TurnsBack left o ps → (t.ensureDirectories base ps).1 = (t'.ensureDirectories base ps).1

theorem ensureDirectories_alike (ho : t.isDirectory o = true) (hs : Asked base o ps) : MadeAlike left t t' base o ps := by
  have ho' := ha.isDirectory o ho
  have ht' := ha.wellFormed ht
  -- From the left: the directories before the last one come to the same.
  refine Asked.induction (P := MadeAlike left t t' base o) ?_ ?_ ?_ hs
  · constructor <;> rw [ensureDirectories_nil, ensureDirectories_nil]
    · exact ha
    · exact fun _ => rfl
  · intro ps fault hs hn hc
    constructor <;> rw [ensureDirectories_of_check hs hn hc, ensureDirectories_of_check hs hn hc]
    · exact ha
    · exact fun _ => rfl
  · intro front part hs hc ⟨adds, succeed, results⟩
    obtain ⟨stopped, goes⟩ := ensureDirectories_append ht ho hs hc
    obtain ⟨stopped', goes'⟩ := ensureDirectories_append ht' ho' hs hc
    by_cases hst : t.StoppedByFile o front
    · constructor <;> rw [stopped hst, stopped' (hst.further ha ht ho)]
      · exact ha
      · exact fun _ => rfl
    · by_cases hst' : t'.StoppedByFile o front
      · -- The path turns back at a further directory before the file, which is then in the way in both trees.
        obtain ⟨fault', refused⟩ := hst'.settled.ensureDirectories_eq ht' ho' hs.around
        rw [refused] at adds succeed
        cases hr : t.ensureDirectories base (Path.settled front) with
        | mk result made =>
          rw [hr] at adds succeed
          cases result with
          | ok => cases succeed
          | error fault =>
            constructor <;> rw [goes hst, stopped' hst', hr]
            · exact adds
            · rfl
            · exact fun hb => absurd (hst'.back ha ht ho fun h => hb (h.append [part])) hst
      · have adds₁ := t.ensureDirectories_adds base (Path.settled front)
        have kept : ¬TurnsBack left o (front ++ [part]) → ¬TurnsBack left o (Path.settled front) :=
          mt (TurnsBack.extend ((Path.settled_isPrefix front).trans (List.prefix_append front [part])))
        cases hr : t.ensureDirectories base (Path.settled front) with
        | mk result made =>
          cases hr' : t'.ensureDirectories base (Path.settled front) with
          | mk result' made' =>
            rw [hr, hr'] at adds succeed results
            rw [hr] at adds₁
            cases result with
            | error fault =>
              cases result' with
              | ok => cases succeed
              | error fault' =>
                constructor <;> rw [goes hst, goes' hst', hr, hr']
                · exact adds
                · rfl
                · exact fun hb => results (kept hb)
            | ok =>
              cases result' with
              | error fault' => cases succeed
              | ok =>
                obtain ⟨-, there⟩ := walk_of_ensureDirectories ht ho hs.around hr
                rw [destination_settled] at there
                obtain ⟨fault, he, he'⟩ | ⟨last, last', he, he', more⟩ :=
                  ensureEntry_alike adds (adds₁.wellFormed ht) there part
                · constructor <;> rw [goes hst, goes' hst', hr, hr'] <;> dsimp only <;> rw [he, he']
                  · exact adds
                  · rfl
                  · exact fun _ => rfl
                · constructor <;> rw [goes hst, goes' hst', hr, hr'] <;> dsimp only <;> rw [he, he']
                  · exact more
                  · rfl
                  · exact fun _ => rfl

omit ha ht in
theorem destination_of_walk_dropLast {ns : List String} (hw : t.walk o ns.dropLast = .ok q)
    (hi : ¬Path.isIdle (ns.getLastD "") = true) (hu : ns.getLastD "" ≠ "..") :
    destination o ns = q ++ [ns.getLastD ""] := by
  induction ns using List.reverseRecOn with
  | nil => exact absurd rfl hi
  | append_singleton ns name =>
    rw [List.getLastD_concat] at hi hu ⊢
    rw [List.dropLast_concat] at hw
    rw [Path.destination_append, ← walk_eq_destination hw]
    show follow q name = _
    rw [follow, if_neg hi, if_neg hu]

/-- Where the directories around a path have been made in both trees, the parts of the path lead to the same places
there, unless it leads to a further directory. -/
theorem walk_eq_of_parent (ho : t.isDirectory o = true)
    (hw : t.walk o (Path.parent ps) = .ok (destination o (Path.parent ps)))
    (hd : t.isDirectory (destination o (Path.parent ps)) = true) (hl : ¬left (destination o ps)) {ms : List String}
    (hm : ms <+: ps) : t'.walk o ms = t.walk o ms := by
  obtain ⟨idle, he, hi, none | ⟨front, part, hs, moves⟩⟩ := Path.settled_cases ps
  · rw [none, List.nil_append] at he
    refine walk_congr ha ht (isSome_of_isDirectory ho) fun h => ?_
    exact (h.of_idle fun part hp => hi part (he ▸ hm.subset hp)).not_isSome (isSome_of_isDirectory ho)
  · rw [hs] at he
    have parent : Path.parent ps = Path.settled front := by rw [Path.parent, hs, List.dropLast_concat]
    rw [parent, destination_settled] at hw hd
    have walked := walk_of_settled hw hd
    obtain short | ⟨rest, rfl⟩ : ms <+: front ∨ front <+: ms := by
      refine List.prefix_or_prefix_of_prefix hm ?_
      rw [he, List.append_assoc]
      exact List.prefix_append ..
    · obtain ⟨rest, hr⟩ := short
      generalize destination o front = q at walked hd
      rw [← hr, walk_append] at walked
      obtain ⟨r, hr, on⟩ := exists_of_bind_eq_ok walked
      rw [hr, walk_mono ha.isDirectory hr (isDirectory_of_walk on hd)]
    · have further : rest <+: part :: idle := by
        rw [he, List.append_assoc] at hm
        exact List.prefix_append_right_inj front |>.mp hm
      rw [walk_append_of_ok walked, walk_append_of_ok (walk_mono ha.isDirectory walked hd)]
      refine walk_congr ha ht (isSome_of_isDirectory hd) fun h => hl ?_
      -- From the directory around on, the path leads to one place.
      have place : destination o ps = follow (destination o front) part := by
        rw [he, Path.destination_append, Path.destination_idle hi, Path.destination_append]
        rfl
      rw [place]
      exact ha.left_of_leftover ((h.extend further).elim id fun h => h.of_idle hi)

/-- A file is created alike where both trees lead to the same places on the way and there is no further directory in
its place. -/
theorem createFile_alike {path : String} (ho : t.isDirectory (Path.origin base path) = true)
    (hw : ∀ ms, ms <+: Path.parts path → t'.walk (Path.origin base path) ms = t.walk (Path.origin base path) ms)
    (hl : ¬left (destination (Path.origin base path) (Path.parts path))) (content : Bytes) :
    (∃ fault, t.createFile base path content = .error fault ∧ t'.createFile base path content = .error fault)
      ∨ ∃ made made', t.createFile base path content = .ok made ∧ t'.createFile base path content = .ok made'
        ∧ Adds left made made' := by
  rw [createFile, createFile]
  cases hc : Path.check path with
  | error fault => exact .inl ⟨fault, rfl, rfl⟩
  | ok =>
    -- Empty parts at the end lead nowhere else.
    have named : ∃ empty, (∀ part ∈ empty, Path.isIdle part = true)
        ∧ Path.parts path = ((Path.parts path).reverse.dropWhile (· == "")).reverse ++ empty := by
      refine ⟨((Path.parts path).reverse.takeWhile (· == "")).reverse, ?_, ?_⟩
      · intro part hp
        have idle := List.all_eq_true.mp List.all_takeWhile part (List.mem_reverse.mp hp)
        rw [beq_iff_eq] at idle
        rw [idle]
        rfl
      · rw [← List.reverse_append, List.takeWhile_append_dropWhile, List.reverse_reverse]
    obtain ⟨empty, he, hparts⟩ := named
    simp only [bind, Except.bind]
    generalize ((Path.parts path).reverse.dropWhile (· == "")).reverse = ns at *
    have front : ns.dropLast <+: Path.parts path := (List.dropLast_prefix ns).trans ⟨empty, hparts.symm⟩
    rw [hw _ front]
    cases hd : t.walk (Path.origin base path) ns.dropLast with
    | error fault => exact .inl ⟨fault, rfl, rfl⟩
    | ok q =>
      have hs : (t.node? q).isSome = true := isSome_walk ht (isSome_of_isDirectory ho) hd
      have around : t'.isDirectory q = t.isDirectory q := by rw [isDirectory, isDirectory, ha.node?_eq_of_isSome hs]
      have same : ¬(decide (ns.length < (Path.parts path).length) || Path.isIdle (ns.getLastD "")
          || decide (ns.getLastD "" = "..")) = true
          → t'.isDirectory (q ++ [ns.getLastD ""]) = t.isDirectory (q ++ [ns.getLastD ""]) := by
        intro plain
        simp only [Bool.or_eq_true, decide_eq_true_eq, not_or] at plain
        obtain ⟨⟨whole, hi⟩, hu⟩ := plain
        have none : empty = [] := by
          rw [hparts, List.length_append] at whole
          exact List.length_eq_zero_iff.mp (by omega)
        rw [none, List.append_nil] at hparts
        rw [hparts, destination_of_walk_dropLast hd hi hu] at hl
        rw [isDirectory, isDirectory, ha.node?_eq_of_not fun h => hl (ha.left_of_leftover h)]
      dsimp only
      rw [around]
      split_ifs with h₁ h₂ h₃ h₄ h₅ h₅
      · exact .inl ⟨_, rfl, rfl⟩
      · exact .inl ⟨_, rfl, rfl⟩
      · exact .inl ⟨_, rfl, rfl⟩
      · exact .inl ⟨_, rfl, rfl⟩
      · rw [same h₂, h₄] at h₅
        exact absurd rfl h₅
      · rw [same h₂] at h₅
        exact absurd h₅ h₄
      · refine .inr ⟨_, _, rfl, rfl, ha.put (by simp) _ ?_⟩
        exact (ha.wellFormed ht).put (around.trans (by simpa using h₁)) fun there => absurd there h₅

end Further

end Relata.FileTree
