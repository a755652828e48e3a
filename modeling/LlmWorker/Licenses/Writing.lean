import LlmWorker.Licenses.Script

/-!
# What the writer leaves

On a tree where nothing stands in its way, `write_outputs` leaves the files of
the outputs, and below LICENSES no others. The cleaning takes the paths in
descending order, so a directory is empty when its turn comes; the writing
finds on its way only what it made itself.
-/

namespace LlmWorker.Licenses

open Python FileTree

-- ---------------------------------------------------------------------------
-- Paths as text
-- ---------------------------------------------------------------------------

theorem pathText_cons (name : Name) (path : TreePath) : ∃ s, pathText (name :: path) = name ++ s := by
  cases path with
  | nil => exact ⟨[], by simp [pathText, join]⟩
  | cons next path => exact ⟨'/' :: pathText (next :: path), by simp [pathText, join, List.intercalate]⟩

theorem parts_pathText (h : ∀ name ∈ path, ValidName name) : parts (pathText path) = path := by
  by_cases hnil : path = []
  · subst hnil
    decide
  · have hslash : ∀ name ∈ path, '/' ∉ name := fun name hname => (h name hname).2.2.2.1
    rw [parts, pathText, join, List.splitOn_intercalate _ hslash hnil, List.filter_eq_self]
    intro name hname
    simpa using ⟨(h name hname).1, (h name hname).2.1⟩

theorem joinPath_pathText (h : ∀ name ∈ path, ValidName name) (dir : TreePath) :
    joinPath dir (pathText path) = dir ++ path := by
  have hhead : (pathText path).head? ≠ some '/' := by
    cases path with
    | nil => decide
    | cons name path =>
      obtain ⟨hne, -, -, hslash, -⟩ := h name (by simp)
      obtain ⟨s, hs⟩ := pathText_cons name path
      cases name with
      | nil => exact absurd rfl hne
      | cons c name =>
        rw [hs]
        rintro ⟨⟩
        exact hslash (by simp)
  rw [joinPath, if_neg hhead, parts_pathText h]

/-- A path that the generator has in its charge. -/
structure IsArtifact (path : TreePath) : Prop where
  valid : ∀ name ∈ path, ValidName name
  place : path = [noticeKey] ∨ [licensesDir] <+: path ∧ path ≠ [licensesDir]

/-- The NOTICE and normalised paths below LICENSES, none of which leads through another. -/
structure LegalPaths (outputs : Dict Str Str) : Prop where
  notice : noticeKey ∈ outputs.keys
  normal : ∀ rel ∈ outputs.keys, pathText (parts rel) = rel
  artifact : ∀ rel ∈ outputs.keys, IsArtifact (parts rel)
  apart : ∀ rel ∈ outputs.keys, ∀ other ∈ outputs.keys, parts rel <+: parts other → rel = other

theorem LegalPaths.join {outputs : Dict Str Str} (h : LegalPaths outputs) (hrel : rel ∈ outputs.keys) (dir : TreePath) :
    joinPath dir rel = dir ++ parts rel := by
  have hjoin := joinPath_pathText (h.artifact rel hrel).valid dir
  rwa [h.normal rel hrel] at hjoin

theorem IsArtifact.split (h : IsArtifact path) : ∃ dir name, path = dir ++ [name] ∧ ValidName name ∧
    (∀ n ∈ dir, ValidName n) ∧ (dir = [] ∧ name = noticeKey ∨ [licensesDir] <+: dir) := by
  rcases List.eq_nil_or_concat path with rfl | ⟨dir, name, hpath⟩
  · rcases h.place with hnil | ⟨hpre, -⟩
    · cases hnil
    · exact absurd (List.prefix_nil.mp hpre) (by simp)
  · rw [List.concat_eq_append] at hpath
    subst hpath
    refine ⟨dir, name, rfl, h.valid name (by simp), fun n hn => h.valid n (by simp [hn]), ?_⟩
    rcases h.place with heq | ⟨hpre, hne⟩
    · exact .inl (by simpa [List.append_eq_singleton_iff] using heq)
    · rw [List.prefix_concat_iff] at hpre
      exact .inr (hpre.resolve_left hne.symm)

-- ---------------------------------------------------------------------------
-- Steps
-- ---------------------------------------------------------------------------

theorem forM_run {f : α → Script Unit} {l : List α} (P : List α → Tree → Prop)
    (hstep : ∀ done x rest t, l = done ++ x :: rest → P done t → ∃ t', (f x).run t = .ok () t' ∧ P (done ++ [x]) t')
    (h : P [] t) : ∃ t', (l.forM f).run t = .ok () t' ∧ P l t' := by
  suffices hrest : ∀ rest done t, l = done ++ rest → P done t → ∃ t', (rest.forM f).run t = .ok () t' ∧ P l t' from
    hrest l [] t rfl h
  intro rest
  induction rest with
  | nil =>
    rintro done t rfl hdone
    exact ⟨t, rfl, by simpa using hdone⟩
  | cons x rest ih =>
    intro done t hl hdone
    obtain ⟨t₁, hrun, hdone₁⟩ := hstep done x rest t hl hdone
    obtain ⟨t', hrun', hall⟩ := ih (done ++ [x]) t₁ (by simp [hl]) hdone₁
    exact ⟨t', (run_bind_ok hrun).trans hrun', hall⟩

theorem call_ok {f : Tree → Except OSError Tree} (h : f t = .ok t') : (call f).run t = .ok () t' := by
  show call f t = _
  simp only [call, h]

theorem removeChild_run {t : Tree} (hdir : t.node path = some .dir) (hnode : t.node (path ++ [name]) ≠ none)
    (hempty : t.Childless (path ++ [name])) :
    ∃ t', (removeChild (path ++ [name])).run t = .ok () t' ∧
      ∀ q, t'.node q = if q = path ++ [name] then none else t.node q := by
  have hname : ValidName name := valid_of_child hnode
  have hentry : t.entry (path ++ [name]) = .ok (path ++ [name]) := entry_child hdir hname
  obtain ⟨n, hn⟩ := Option.ne_none_iff_exists'.mp hnode
  cases n with
  | dir =>
    obtain ⟨t', hrmdir, hnodes⟩ := rmdir_child hdir hn hempty
    have hkind : (t.isFile (path ++ [name]) || t.isSymlink (path ++ [name])) = false := by
      simp only [isFile, stat_dir hn, isSymlink, hentry, hn, Bool.or_self]
    refine ⟨t', ?_, hnodes⟩
    refine (run_bind_ok rfl).trans ?_
    rw [hkind]
    exact call_ok hrmdir
  | file content =>
    obtain ⟨t', hunlink, hnodes⟩ := unlink_child hdir hn (by simp)
    have hkind : t.isFile (path ++ [name]) = true := by
      simp only [isFile, stat_child hdir hname (by simp [hn]), hn]
    refine ⟨t', ?_, hnodes⟩
    refine (run_bind_ok rfl).trans ?_
    rw [hkind, Bool.true_or]
    exact call_ok hunlink
  | link target =>
    obtain ⟨t', hunlink, hnodes⟩ := unlink_child hdir hn (by simp)
    have hkind : t.isSymlink (path ++ [name]) = true := by simp only [isSymlink, hentry, hn]
    refine ⟨t', ?_, hnodes⟩
    refine (run_bind_ok rfl).trans ?_
    rw [hkind, Bool.or_true]
    exact call_ok hunlink

theorem writeOutput_run {t : Tree} (hclear : t.Clear (outDir ++ path)) (hname : ValidName name)
    (hjoin : joinPath outDir rel = outDir ++ path ++ [name]) (hdir : t.node (outDir ++ path ++ [name]) ≠ some .dir)
    (hlink : ∀ target, t.node (outDir ++ path ++ [name]) ≠ some (.link target)) :
    ∃ t', (writeOutput outDir (rel, text)).run t = .ok () t' ∧
      ∀ q, t'.node q = if q = outDir ++ path ++ [name] then some (.file (.text text))
        else if q <+: outDir ++ path then some .dir else t.node q := by
  obtain ⟨t₁, hmkdirs, hnodes₁⟩ := mkdirs_clear hclear
  have hdir₁ : t₁.node (outDir ++ path) = some .dir := by rw [hnodes₁, if_pos (List.prefix_refl _)]
  have hdest : t₁.node (outDir ++ path ++ [name]) = t.node (outDir ++ path ++ [name]) := by
    rw [hnodes₁, if_neg (concat_not_prefix_self _ name)]
  obtain ⟨t', hwrite, hnodes⟩ := writeFile_child hdir₁ hname (.text text) (by rwa [hdest]) (by rwa [hdest])
  refine ⟨t', ?_, fun q => by rw [hnodes, hnodes₁]⟩
  simp only [writeOutput, hjoin, List.dropLast_concat]
  exact (run_bind_ok (call_ok hmkdirs)).trans (call_ok hwrite)

-- ---------------------------------------------------------------------------
-- The cleaning
-- ---------------------------------------------------------------------------

theorem lt_of_prefix {p q : TreePath} (h : p <+: q) (hne : p ≠ q) : p < q := by
  by_contra hlt
  have hle : q ≤ p := not_lt.mp hlt
  rcases hle.lt_or_eq with hgt | heq
  · exact h.le hgt
  · exact hne heq.symm

theorem sortedDown_perm (paths : List TreePath) : (sortedDown paths).Perm paths := List.perm_insertionSort _ _

theorem mem_done {paths : List TreePath} (hnodup : paths.Nodup) (h : sortedDown paths = done ++ child :: rest) :
    rel ∈ done ↔ rel ∈ paths ∧ child < rel := by
  have hperm : (done ++ child :: rest).Perm paths := h ▸ sortedDown_perm paths
  have hsorted : (done ++ child :: rest).Pairwise (· ≥ ·) := h ▸ List.pairwise_insertionSort _ _
  have hnodup := hperm.nodup_iff.mpr hnodup
  obtain ⟨-, hrest, hdone⟩ := List.pairwise_append.mp hsorted
  rw [← hperm.mem_iff]
  constructor
  · intro hrel
    refine ⟨List.mem_append_left _ hrel, lt_of_le_of_ne (hdone rel hrel child (by simp)) ?_⟩
    rintro rfl
    exact List.disjoint_of_nodup_append hnodup hrel (by simp)
  · rintro ⟨hrel, hlt⟩
    rcases List.mem_append.mp hrel with hrel | hrel
    · exact hrel
    · rcases List.mem_cons.mp hrel with rfl | hrel
      · exact absurd hlt (lt_irrefl _)
      · exact absurd hlt (not_lt.mpr ((List.pairwise_cons.mp hrest).1 rel hrel))

/-- The tree without the nodes at the paths that are done. -/
def Cleaned (t : Tree) (dir : TreePath) (done : List TreePath) (s : Tree) : Prop :=
  ∀ q, s.node q = if q ∈ done.map (dir ++ ·) then none else t.node q

theorem Cleaned.node_append {t : Tree} (h : Cleaned t dir done s) (rel : TreePath) :
    s.node (dir ++ rel) = if rel ∈ done then none else t.node (dir ++ rel) := by
  rw [h]
  simp

theorem removeChild_next {t : Tree} (hdir : t.node dir = some .dir)
    (hsplit : sortedDown (t.walkBelow dir) = done ++ child :: rest) (h : Cleaned t dir done s) :
    ∃ s', (removeChild (dir ++ child)).run s = .ok () s' ∧ Cleaned t dir (done ++ [child]) s' := by
  have hdone (rel : TreePath) : rel ∈ done ↔ (rel ≠ [] ∧ t.node (dir ++ rel) ≠ none) ∧ child < rel := by
    rw [mem_done (nodup_walkBelow t dir) hsplit, mem_walkBelow hdir]
  obtain ⟨hne, hthere⟩ : child ≠ [] ∧ t.node (dir ++ child) ≠ none := by
    rw [← mem_walkBelow hdir, ← (sortedDown_perm _).mem_iff, hsplit]
    simp
  obtain ⟨up, name, rfl⟩ : ∃ up name, child = up ++ [name] :=
    ⟨child.dropLast, child.getLast hne, (List.dropLast_append_getLast hne).symm⟩
  have hup : s.node (dir ++ up) = some .dir := by
    have hlt : up < up ++ [name] := lt_of_prefix (List.prefix_append _ _) (by simp)
    rw [h.node_append, if_neg fun hmem => lt_asymm hlt ((hdone up).mp hmem).2]
    rw [← List.append_assoc] at hthere
    exact dir_of_child hthere
  have hchild : s.node (dir ++ up ++ [name]) ≠ none := by
    rw [List.append_assoc, h.node_append, if_neg fun hmem => lt_irrefl _ ((hdone _).mp hmem).2]
    exact hthere
  have hempty : s.Childless (dir ++ up ++ [name]) := by
    refine childless_iff.mpr fun below hbelow => ?_
    have hlt : up ++ [name] < up ++ [name] ++ below := lt_of_prefix (List.prefix_append _ _) (by simpa using hbelow)
    rw [List.append_assoc dir, List.append_assoc, h.node_append]
    split
    · rfl
    · rename_i hmem
      by_contra hnone
      exact hmem ((hdone _).mpr ⟨⟨by simp, hnone⟩, hlt⟩)
  rw [← List.append_assoc]
  obtain ⟨s', hrun, hnodes⟩ := removeChild_run hup hchild hempty
  refine ⟨s', hrun, fun q => ?_⟩
  rw [hnodes, h q, List.append_assoc]
  by_cases hq : q = dir ++ (up ++ [name])
  · simp [hq]
  · rw [if_neg hq]
    simp only [List.map_append, List.mem_append, List.map_singleton, List.mem_singleton, hq, or_false]

/-- The cleaning leaves nothing below the directory and touches nothing else. -/
theorem cleanLicenses_run {t : Tree} (hclear : t.Clear dir) :
    ∃ t', (cleanLicenses dir).run t = .ok () t' ∧
      ∀ q, t'.node q = if dir <+: q ∧ q ≠ dir then none else t.node q := by
  unfold cleanLicenses
  rcases hclear.1 dir (List.prefix_refl _) with hnone | hdir
  · have hexists : t.exists? dir = false := by simp only [exists?, hclear.stat_missing hnone, Option.isSome_none]
    refine ⟨t, (run_bind_ok rfl).trans (by rw [hexists]; rfl), fun q => ?_⟩
    split
    · rename_i hbelow
      obtain ⟨⟨rest, rfl⟩, hne⟩ := hbelow
      by_contra hthere
      rw [dir_of_append hthere (by simpa using hne)] at hnone
      cases hnone
    · rfl
  · have hexists : t.exists? dir = true := by simp only [exists?, stat_dir hdir, Option.isSome_some]
    have hstart : Cleaned t dir [] t := fun q => by simp
    obtain ⟨t', hrun, hcleaned⟩ := forM_run (Cleaned t dir) (fun _ _ _ _ => removeChild_next hdir) hstart
    refine ⟨t', (run_bind_ok rfl).trans (by rw [hexists]; exact hrun), fun q => ?_⟩
    by_cases hbelow : dir <+: q
    · obtain ⟨rel, rfl⟩ := hbelow
      have hmem : rel ∈ sortedDown (t.walkBelow dir) ↔ rel ≠ [] ∧ t.node (dir ++ rel) ≠ none := by
        rw [(sortedDown_perm _).mem_iff, mem_walkBelow hdir]
      simp only [hcleaned.node_append, hmem]
      by_cases hrel : rel = [] <;> simp [hrel]
    · rw [hcleaned, if_neg, if_neg (fun h => hbelow h.1)]
      rintro hmem
      obtain ⟨rel, -, rfl⟩ := List.mem_map.mp hmem
      exact hbelow (List.prefix_append _ _)

-- ---------------------------------------------------------------------------
-- The writing
-- ---------------------------------------------------------------------------

/-- Where the generator writes stand files, and directories on the way there. -/
structure Ready (t : Tree) (outDir : TreePath) : Prop where
  clear : ∀ path, IsArtifact path → t.Clear (outDir ++ path.dropLast)
  free : ∀ path, IsArtifact path → ∀ n, t.node (outDir ++ path) = some n → ∃ content, n = .file content

/-- The tree with some of the outputs written on it. -/
structure Written (t : Tree) (outDir : TreePath) (done : List (Str × Str)) (s : Tree) : Prop where
  file : ∀ output ∈ done, s.node (outDir ++ parts output.1) = some (.file (.text output.2))
  dir : ∀ output ∈ done, ∀ q, q <+: outDir ++ (parts output.1).dropLast → s.node q = some .dir
  rest : ∀ q, (∀ output ∈ done, ¬q <+: outDir ++ parts output.1) → s.node q = t.node q

theorem prefix_parts (h : parts rel ≠ []) :
    q <+: outDir ++ parts rel ↔ q = outDir ++ parts rel ∨ q <+: outDir ++ (parts rel).dropLast := by
  obtain ⟨up, name, hparts⟩ : ∃ up name, parts rel = up ++ [name] :=
    ⟨_, _, (List.dropLast_append_getLast h).symm⟩
  rw [hparts, List.dropLast_concat, ← List.append_assoc, List.prefix_concat_iff]

theorem Written.cases {t : Tree} (h : Written t outDir done s) (hne : ∀ output ∈ done, parts output.1 ≠ []) (q : TreePath) :
    (∃ output ∈ done, q = outDir ++ parts output.1) ∨ s.node q = some .dir ∨
      (∀ output ∈ done, ¬q <+: outDir ++ parts output.1) ∧ s.node q = t.node q := by
  by_cases hnew : ∀ output ∈ done, ¬q <+: outDir ++ parts output.1
  · exact .inr (.inr ⟨hnew, h.rest q hnew⟩)
  · simp only [not_forall, not_not] at hnew
    obtain ⟨output, hout, hpre⟩ := hnew
    rcases (prefix_parts (hne output hout)).mp hpre with heq | hdir
    · exact .inl ⟨output, hout, heq⟩
    · exact .inr (.inl (h.dir output hout q hdir))

section

variable {t s : Tree} {outputs : Dict Str Str} (hlegal : LegalPaths outputs) (hready : Ready t outDir)

include hlegal

theorem LegalPaths.parts_ne_nil (hrel : rel ∈ outputs.keys) : parts rel ≠ [] := by
  obtain ⟨up, name, hparts, -⟩ := (hlegal.artifact rel hrel).split
  simp [hparts]

include hready

theorem writeOutput_next (hsplit : outputs.items = done ++ (rel, text) :: rest) (h : Written t outDir done s) :
    ∃ s', (writeOutput outDir (rel, text)).run s = .ok () s' ∧ Written t outDir (done ++ [(rel, text)]) s' := by
  have hrel : rel ∈ outputs.keys := List.mem_map.mpr ⟨(rel, text), by simp [hsplit], rfl⟩
  have hkey : ∀ output ∈ done, output.1 ∈ outputs.keys := fun output hout =>
    List.mem_map.mpr ⟨output, by simp [hsplit, hout], rfl⟩
  have hother : ∀ output ∈ done, output.1 ≠ rel := by
    have hnodup := outputs.nodup
    rw [hsplit, List.map_append] at hnodup
    rintro output hout rfl
    exact List.disjoint_of_nodup_append hnodup (List.mem_map_of_mem hout) (by simp)
  have hunder : ∀ output ∈ done, ¬outDir ++ parts rel <+: outDir ++ parts output.1 := fun output hout hpre =>
    hother output hout (hlegal.apart rel hrel _ (hkey output hout) (by simpa using hpre)).symm
  have hover : ∀ output ∈ done, ¬outDir ++ parts output.1 <+: outDir ++ parts rel := fun output hout hpre =>
    hother output hout (hlegal.apart _ (hkey output hout) rel hrel (by simpa using hpre))
  have hclear := hready.clear _ (hlegal.artifact rel hrel)
  have hjoin := hlegal.join hrel outDir
  have hdest : s.node (outDir ++ parts rel) = t.node (outDir ++ parts rel) := h.rest _ hunder
  have hfree := hready.free _ (hlegal.artifact rel hrel)
  rw [← hdest] at hfree
  obtain ⟨up, name, hparts, hname, -⟩ := (hlegal.artifact rel hrel).split
  rw [hparts, List.dropLast_concat] at hclear
  rw [hparts] at hjoin hunder hover hfree
  rw [← List.append_assoc] at hjoin hunder hover hfree
  have hclear' : s.Clear (outDir ++ up) := by
    refine ⟨fun q hq => ?_, hclear.2⟩
    have hcases := h.cases (fun output hout => hlegal.parts_ne_nil (hkey output hout)) q
    rcases hcases with ⟨output, hout, rfl⟩ | hdir | ⟨-, hold⟩
    · exact absurd (hq.trans (List.prefix_append _ _)) (hover output hout)
    · exact .inr hdir
    · rw [hold]
      exact hclear.1 q hq
  obtain ⟨s', hrun, hnodes⟩ := writeOutput_run hclear' hname hjoin
    (fun hdir => by obtain ⟨_, ⟨⟩⟩ := hfree _ hdir) (fun target hlink => by obtain ⟨_, ⟨⟩⟩ := hfree _ hlink)
  refine ⟨s', hrun, ?_, ?_, ?_⟩
  · intro output hout
    rcases List.mem_append.mp hout with hout | hout
    · rw [hnodes, if_neg, if_neg, h.file output hout]
      · exact fun hpre => hover output hout (hpre.trans (List.prefix_append _ _))
      · exact fun heq => hover output hout (heq ▸ List.prefix_refl _)
    · obtain rfl := List.mem_singleton.mp hout
      rw [hnodes, hparts, ← List.append_assoc, if_pos rfl]
  · intro output hout q hq
    rcases List.mem_append.mp hout with hout | hout
    · rw [hnodes, if_neg, h.dir output hout q hq, ite_self]
      rintro rfl
      exact hunder output hout ((prefix_parts (hlegal.parts_ne_nil (hkey output hout))).mpr (.inr hq))
    · obtain rfl := List.mem_singleton.mp hout
      rw [hparts, List.dropLast_concat] at hq
      rw [hnodes, if_neg, if_pos hq]
      rintro rfl
      exact concat_not_prefix_self _ name hq
  · intro q hq
    have hnot := hq (rel, text) (by simp)
    rw [hparts, ← List.append_assoc, List.prefix_concat_iff, not_or] at hnot
    rw [hnodes, if_neg hnot.1, if_neg hnot.2]
    exact h.rest q fun output hout => hq output (by simp [hout])

omit hlegal hready

/-- Nothing stands in the way of the writer: the NOTICE, where it is there, is
a regular file, and the directories are directories. -/
structure Unobstructed (t : Tree) (outDir : TreePath) : Prop where
  way : t.Clear outDir
  notice : ∀ n, t.node (outDir ++ [noticeKey]) = some n → ∃ content, n = .file content
  licenses : ∀ n, t.node (outDir ++ [licensesDir]) = some n → n = .dir

theorem Unobstructed.clear (h : Unobstructed t outDir) : t.Clear (outDir ++ [licensesDir]) := by
  constructor
  · intro q hq
    rcases List.prefix_concat_iff.mp hq with rfl | hq
    · cases hn : t.node (outDir ++ [licensesDir]) with
      | none => exact .inl rfl
      | some n => exact .inr (congrArg some (h.licenses n hn))
    · exact h.way.1 q hq
  · intro name hname
    rcases List.mem_append.mp hname with hname | hname
    · exact h.way.2 name hname
    · rw [List.mem_singleton.mp hname]
      decide

theorem ready_of_cleaned (h : Unobstructed t outDir)
    (hnodes : ∀ q, s.node q = if outDir ++ [licensesDir] <+: q ∧ q ≠ outDir ++ [licensesDir] then none else t.node q) :
    Ready s outDir := by
  constructor
  · intro path hpath
    obtain ⟨up, name, rfl, -, hvalid, hplace⟩ := hpath.split
    rw [List.dropLast_concat]
    refine ⟨fun q hq => ?_, fun n hn => ?_⟩
    · rw [hnodes]
      split
      · exact .inl rfl
      · rename_i hnot
        rcases hplace with ⟨rfl, -⟩ | hup
        · exact h.way.1 q (by simpa using hq)
        · have hlicenses : outDir ++ [licensesDir] <+: outDir ++ up := by simpa using hup
          rcases List.prefix_or_prefix_of_prefix hq hlicenses with hle | hge
          · exact h.clear.1 q hle
          · have heq : q = outDir ++ [licensesDir] := by
              by_contra hne
              exact hnot ⟨hge, hne⟩
            exact h.clear.1 q (by simp [heq])
    · exact (List.mem_append.mp hn).elim (h.way.2 n) (hvalid n)
  · intro path hpath n hn
    rw [hnodes] at hn
    split at hn
    · cases hn
    · rename_i hnot
      rcases hpath.place with rfl | ⟨hbelow, hne⟩
      · exact h.notice n hn
      · exact absurd ⟨by simpa using hbelow, by simpa using hne⟩ hnot

structure Rewritten (outDir : TreePath) (outputs : Dict Str Str) (t t' : Tree) : Prop where
  files : ∀ path, IsArtifact path → ∀ content, t'.node (outDir ++ path) = some (.file content) ↔
    ∃ text, outputs.get? (pathText path) = some text ∧ content = .text text
  links : ∀ path, [licensesDir] <+: path → ∀ target, t'.node (outDir ++ path) ≠ some (.link target)
  parents : ∀ q, q <+: outDir → t'.node q = some .dir
  rest : ∀ q, ¬q <+: outDir → q ≠ outDir ++ [noticeKey] → ¬outDir ++ [licensesDir] <+: q → t'.node q = t.node q

include hlegal

theorem writeOutputs_run (h : Unobstructed t outDir) :
    ∃ t', (writeOutputs outDir outputs).run t = .ok () t' ∧ Rewritten outDir outputs t t' := by
  obtain ⟨s, hclean, hnodes⟩ := cleanLicenses_run h.clear
  have hready := ready_of_cleaned h hnodes
  have hstart : Written s outDir [] s := ⟨by simp, by simp, fun _ _ => rfl⟩
  obtain ⟨t', hwrite, hwritten⟩ :=
    forM_run (Written s outDir) (fun _ _ _ _ hsplit => writeOutput_next hlegal hready hsplit) hstart
  have hkey : ∀ output ∈ outputs.items, output.1 ∈ outputs.keys := fun output hout => List.mem_map_of_mem hout
  have hcases := hwritten.cases fun output hout => hlegal.parts_ne_nil (hkey output hout)
  obtain ⟨notice, hnotice⟩ : ∃ text, (noticeKey, text) ∈ outputs.items := by
    obtain ⟨output, hout, heq⟩ := List.mem_map.mp hlegal.notice
    exact ⟨output.2, heq ▸ hout⟩
  have hnoticeParts : parts noticeKey = [noticeKey] := by decide
  refine ⟨t', (run_bind_ok hclean).trans hwrite, ?_, ?_, ?_, ?_⟩
  · intro path hpath content
    constructor
    · intro hfile
      rcases hcases (outDir ++ path) with ⟨output, hout, heq⟩ | hdir | ⟨hnot, hclean⟩
      · have hparts : path = parts output.1 := List.append_cancel_left heq
        rw [hparts, hwritten.file output hout] at hfile
        refine ⟨output.2, ?_, ?_⟩
        · rw [hparts, hlegal.normal _ (hkey output hout)]
          exact Dict.get?_eq_some.mpr hout
        · cases hfile
          rfl
      · rw [hfile] at hdir
        cases hdir
      · exfalso
        rcases hpath.place with rfl | ⟨hbelow, hne⟩
        · exact hnot _ hnotice (by simp [hnoticeParts])
        · rw [hclean, hnodes, if_pos ⟨by simpa using hbelow, by simpa using hne⟩] at hfile
          cases hfile
    · rintro ⟨text, hget, rfl⟩
      have hfile := hwritten.file _ (Dict.get?_eq_some.mp hget)
      rwa [parts_pathText hpath.valid] at hfile
  · intro path hbelow target hlink
    rcases hcases (outDir ++ path) with ⟨output, hout, heq⟩ | hdir | ⟨-, hclean⟩
    · rw [heq, hwritten.file output hout] at hlink
      cases hlink
    · rw [hlink] at hdir
      cases hdir
    · rw [hclean, hnodes] at hlink
      split at hlink
      · cases hlink
      · rename_i hnot
        have heq : path = [licensesDir] := by
          by_contra hne
          exact hnot ⟨by simpa using hbelow, by simpa using hne⟩
        cases h.licenses _ (heq ▸ hlink)
  · intro q hq
    exact hwritten.dir _ hnotice q (by simpa [hnoticeParts] using hq)
  · intro q hout hnotice hlicenses
    rw [hwritten.rest q, hnodes, if_neg fun hbelow => hlicenses hbelow.1]
    intro output houtput hpre
    rcases (hlegal.artifact _ (hkey output houtput)).place with hparts | ⟨hbelow, -⟩
    · rw [hparts, List.prefix_concat_iff] at hpre
      exact hpre.elim hnotice hout
    · have hdir : outDir ++ [licensesDir] <+: outDir ++ parts output.1 := by simpa using hbelow
      rcases List.prefix_or_prefix_of_prefix hpre hdir with hle | hge
      · rcases List.prefix_concat_iff.mp hle with heq | hle
        · exact hlicenses (by simp [heq])
        · exact hout hle
      · exact hlicenses hge

end

end LlmWorker.Licenses
