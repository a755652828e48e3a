import LlmWorker.Licenses.Writing
import Mathlib.Data.List.Infix

/-!
# The writer and the drift check agree

What `find_drift` lists is what is missing, changed and stale, each once; it
lists nothing on a tree that is in sync with the outputs, such as the writer
leaves.
-/

namespace LlmWorker.Licenses

open Python FileTree

-- ---------------------------------------------------------------------------
-- What the check is to say
-- ---------------------------------------------------------------------------

section

variable (t : Tree) (outDir : TreePath) (outputs : Dict Str Str)

def Missing (rel : Str) : Prop := rel ∈ outputs.keys ∧ t.exists? (joinPath outDir rel) = false

def Changed (rel : Str) : Prop :=
  ∃ text, outputs.get? rel = some text ∧ t.exists? (joinPath outDir rel) = true ∧
    readText t (joinPath outDir rel) ≠ .ok text

def Stale (rel : Str) : Prop :=
  ∃ path, IsArtifact path ∧ t.isFile (outDir ++ path) = true ∧ pathText path = rel ∧ rel ∉ outputs.keys

/-- The NOTICE and the files below LICENSES are the outputs, as text. -/
structure InSync : Prop where
  files : ∀ path, IsArtifact path → (t.isFile (outDir ++ path) = true ↔ pathText path ∈ outputs.keys)
  texts : ∀ rel text, outputs.get? rel = some text → readText t (joinPath outDir rel) = .ok text

structure Lists (drift : List Str) : Prop where
  nodup : drift.Nodup
  mem : ∀ line, line ∈ drift ↔ ∃ rel, Missing t outDir outputs rel ∧ line = missingLine rel ∨
    Changed t outDir outputs rel ∧ line = changedLine rel ∨ Stale t outDir outputs rel ∧ line = staleLine rel

end

-- ---------------------------------------------------------------------------
-- Lines
-- ---------------------------------------------------------------------------

theorem missingLine_injective : Function.Injective missingLine := fun _ _ h => List.append_cancel_left h
theorem changedLine_injective : Function.Injective changedLine := fun _ _ h => List.append_cancel_left h
theorem staleLine_injective : Function.Injective staleLine := fun _ _ h => List.append_cancel_left h

@[simp] theorem head_missingLine (rel : Str) : (missingLine rel).head? = some 'm' := by
  show ("missing: ".toList ++ rel).head? = _
  simp

@[simp] theorem head_changedLine (rel : Str) : (changedLine rel).head? = some 'c' := by
  show ("changed: ".toList ++ rel).head? = _
  simp

@[simp] theorem head_staleLine (rel : Str) : (staleLine rel).head? = some 's' := by
  show ("stale: ".toList ++ rel).head? = _
  simp

theorem ne_of_head {line line' : Str} (h : line.head? ≠ line'.head?) : line ≠ line' := fun heq =>
  h (congrArg List.head? heq)

/-- The line of one output, where the check gets past it. -/
def outputLine (t : Tree) (outDir : TreePath) (output : Str × Str) : Option Str :=
  let dest := joinPath outDir output.1
  if t.exists? dest then if readText t dest = .ok output.2 then none else some (changedLine output.1)
  else some (missingLine output.1)

theorem driftOf_ok (h : driftOf t outDir output = .ok ls) : ls = (outputLine t outDir output).toList := by
  simp only [driftOf] at h
  simp only [outputLine]
  split at h
  · rename_i hexists
    split at h
    · cases h
    · rename_i text hread
      cases h
      by_cases heq : text = output.2 <;> simp [hexists, hread, heq]
  · rename_i hexists
    cases h
    simp [hexists]

theorem outputLine_cases (h : outputLine t outDir output = some line) :
    t.exists? (joinPath outDir output.1) = false ∧ line = missingLine output.1 ∨
      (t.exists? (joinPath outDir output.1) = true ∧ readText t (joinPath outDir output.1) ≠ .ok output.2) ∧
        line = changedLine output.1 := by
  simp only [outputLine] at h
  split at h
  · rename_i hexists
    split at h
    · cases h
    · rename_i hread
      cases h
      exact .inr ⟨⟨hexists, hread⟩, rfl⟩
  · rename_i hexists
    cases h
    exact .inl ⟨by simpa using hexists, rfl⟩

theorem outputLine_inj (h : outputLine t outDir output = some line) (h' : outputLine t outDir output' = some line) :
    output.1 = output'.1 := by
  rcases outputLine_cases h with ⟨-, rfl⟩ | ⟨-, rfl⟩ <;> rcases outputLine_cases h' with ⟨-, heq⟩ | ⟨-, heq⟩
  · exact missingLine_injective heq
  · exact absurd heq (ne_of_head (by simp))
  · exact absurd heq (ne_of_head (by simp))
  · exact changedLine_injective heq

def stalePaths (t : Tree) (outDir : TreePath) (outputs : Dict Str Str) : List Str :=
  (onDisk t outDir).filter fun rel => rel ∉ outputs.keys

theorem flatten_lines (h : List.Forall₂ (fun output ls => driftOf t outDir output = .ok ls) items lines) :
    lines.flatten = items.filterMap (outputLine t outDir) := by
  induction h with
  | nil => rfl
  | @cons output ls items lines houtput _ ih =>
    rw [List.flatten_cons, ih, driftOf_ok houtput]
    cases hline : outputLine t outDir output <;> simp [hline]

theorem findDrift_ok (h : findDrift t outDir outputs = .ok drift) :
    drift = (sortedBy Prod.fst outputs.items).filterMap (outputLine t outDir) ++
      (sortedBy id (stalePaths t outDir outputs)).map staleLine := by
  obtain ⟨lines, hlines, hdrift⟩ := bind_ok.mp h
  cases hdrift
  rw [flatten_lines (mapM_ok.mp hlines), stalePaths]

-- ---------------------------------------------------------------------------
-- Reading
-- ---------------------------------------------------------------------------

theorem universalNewlines_of_no_cr (h : '\r' ∉ s) : universalNewlines s = s := by
  fun_induction universalNewlines s with
  | case1 => rfl
  | case2 s ih => simp at h
  | case3 c s hpair ih =>
    rw [List.mem_cons, not_or] at h
    rw [if_neg (Ne.symm h.1), ih h.2]

theorem isFile_of_readText (h : readText t path = .ok text) : t.isFile path = true := by
  unfold readText readFile at h
  unfold isFile stat
  split at h
  · rename_i hread
    split at hread
    · cases hread
    · rename_i q hq
      simp only [hq]
      split at hread
      · rename_i hnode
        rw [hnode]
      · cases hread
      · cases hread
      · cases hread
  · cases h
  · cases h

theorem exists_of_isFile {t : Tree} (h : t.isFile path = true) : t.exists? path = true := by
  obtain ⟨content, hstat⟩ := isFile_iff.mp h
  rw [exists?, hstat]
  rfl

theorem readText_file {t : Tree} (h : t.node (path ++ [name]) = some (.file (.text text))) :
    readText t (path ++ [name]) = .ok (universalNewlines text) := by
  have hthere : t.node (path ++ [name]) ≠ none := by simp [h]
  have hres : t.resolve maxLinks (path ++ [name]) = .ok (path ++ [name]) :=
    resolve_child (dir_of_child hthere) (valid_of_child hthere) (by simp [h]) _
  simp only [readText, readFile, hres, h]

-- ---------------------------------------------------------------------------
-- The check
-- ---------------------------------------------------------------------------

section

variable {t : Tree} {outputs : Dict Str Str} (hlegal : LegalPaths outputs) (hclear : t.Clear outDir)
  (hunlinked : t.Unlinked (outDir ++ [licensesDir]))

omit hlegal in
include hclear hunlinked in
theorem licenses_dir (h : t.isDir (outDir ++ [licensesDir]) = true) : t.node (outDir ++ [licensesDir]) = some .dir := by
  have hout : t.isDir outDir = true := isDir_of_stat (isDir_iff.mp h) (by simp)
  exact hunlinked.dir_of_child (List.prefix_refl _) (by decide) (hclear.dir_of_isDir hout) h

include hlegal hclear hunlinked

theorem mem_stalePaths : rel ∈ stalePaths t outDir outputs ↔ Stale t outDir outputs rel := by
  simp only [stalePaths, onDisk, List.mem_filter, List.mem_append, decide_eq_true_eq]
  constructor
  · rintro ⟨hnotice | hlicenses, hkey⟩
    · split at hnotice
      · rw [List.mem_singleton.mp hnotice] at hkey
        exact absurd hlegal.notice hkey
      · cases hnotice
    · split at hlicenses
      · obtain ⟨path, hpath, rfl⟩ := List.mem_map.mp hlicenses
        obtain ⟨hwalk, hfile⟩ := List.mem_filter.mp hpath
        obtain ⟨hne, hvalid⟩ := of_mem_walkBelow hwalk
        refine ⟨licensesDir :: path, ⟨?_, .inr ⟨by simp, by simpa using hne⟩⟩, by simpa using hfile, rfl, hkey⟩
        exact List.forall_mem_cons.mpr ⟨by decide, hvalid⟩
      · cases hlicenses
  · rintro ⟨path, hpath, hfile, rfl, hkey⟩
    refine ⟨.inr ?_, hkey⟩
    rcases hpath.place with rfl | ⟨⟨below, rfl⟩, hne⟩
    · exact absurd hlegal.notice hkey
    · have hbelow : below ≠ [] := by simpa using hne
      have hvalid : ∀ name ∈ below, ValidName name := fun name hname => hpath.valid name (by simp [hname])
      rw [← List.append_assoc] at hfile
      have hwalk := mem_walkBelow_of_isFile (licenses_dir hclear hunlinked) hunlinked hvalid hbelow hfile
      obtain ⟨content, hstat⟩ := isFile_iff.mp hfile
      have hexists : t.exists? (outDir ++ [licensesDir]) = true := by
        rw [exists?, isDir_iff.mp (isDir_of_stat hstat hbelow)]
        rfl
      rw [if_pos hexists]
      exact List.mem_map.mpr ⟨below, List.mem_filter.mpr ⟨hwalk, hfile⟩, rfl⟩

omit hclear hunlinked in
theorem nodup_stalePaths : (stalePaths t outDir outputs).Nodup := by
  have hnotice : ((if t.exists? (outDir ++ [noticeKey]) then [noticeKey] else []).filter
      fun rel => rel ∉ outputs.keys) = [] := by
    split <;> simp [hlegal.notice]
  rw [stalePaths, onDisk, List.filter_append, hnotice, List.nil_append]
  refine List.Nodup.filter _ ?_
  split
  · refine List.Nodup.map_on ?_ ((nodup_walkBelow t _).filter _)
    intro path hpath path' hpath' heq
    have hvalid {path : TreePath} (h : path ∈ t.walkBelow (outDir ++ [licensesDir])) :
        ∀ name ∈ licensesDir :: path, ValidName name :=
      List.forall_mem_cons.mpr ⟨by decide, (of_mem_walkBelow h).2⟩
    have hparts := congrArg parts heq
    rw [parts_pathText (hvalid (List.mem_filter.mp hpath).1),
      parts_pathText (hvalid (List.mem_filter.mp hpath').1)] at hparts
    exact (List.cons.inj hparts).2
  · exact .nil

theorem findDrift_lists (h : findDrift t outDir outputs = .ok drift) : Lists t outDir outputs drift := by
  have hsorted := sortedBy_perm Prod.fst outputs.items
  have hstale := sortedBy_perm id (stalePaths t outDir outputs)
  rw [findDrift_ok h]
  constructor
  · rw [List.nodup_append']
    refine ⟨?_, ?_, ?_⟩
    · have hkeys : ((sortedBy Prod.fst outputs.items).map Prod.fst).Nodup := (hsorted.map _).nodup_iff.mpr outputs.nodup
      refine List.pairwise_filterMap.mpr ((List.pairwise_map.mp hkeys).imp fun hne line hline line' hline' heq => ?_)
      exact hne (outputLine_inj hline (heq ▸ hline'))
    · exact (hstale.nodup_iff.mpr (nodup_stalePaths hlegal)).map staleLine_injective
    · intro line hline hstaleLine
      obtain ⟨output, -, hline⟩ := List.mem_filterMap.mp hline
      obtain ⟨rel, -, rfl⟩ := List.mem_map.mp hstaleLine
      rcases outputLine_cases hline with ⟨-, heq⟩ | ⟨-, heq⟩
      · exact ne_of_head (by simp) heq
      · exact ne_of_head (by simp) heq
  · intro line
    rw [List.mem_append, List.mem_filterMap, List.mem_map]
    constructor
    · rintro (⟨output, hout, hline⟩ | ⟨rel, hrel, rfl⟩)
      · have hitem := hsorted.mem_iff.mp hout
        refine ⟨output.1, ?_⟩
        rcases outputLine_cases hline with ⟨hexists, heq⟩ | ⟨⟨hexists, hread⟩, heq⟩
        · exact .inl ⟨⟨List.mem_map_of_mem hitem, hexists⟩, heq⟩
        · exact .inr (.inl ⟨⟨output.2, Dict.get?_eq_some.mpr hitem, hexists, hread⟩, heq⟩)
      · exact ⟨rel, .inr (.inr ⟨(mem_stalePaths hlegal hclear hunlinked).mp (hstale.mem_iff.mp hrel), rfl⟩)⟩
    · rintro ⟨rel, ⟨⟨hkey, hexists⟩, rfl⟩ | ⟨⟨text, hget, hexists, hread⟩, rfl⟩ | ⟨hrel, rfl⟩⟩
      · obtain ⟨output, hitem, rfl⟩ := List.mem_map.mp hkey
        exact .inl ⟨output, hsorted.mem_iff.mpr hitem, by simp [outputLine, hexists]⟩
      · have hitem := Dict.get?_eq_some.mp hget
        exact .inl ⟨(rel, text), hsorted.mem_iff.mpr hitem, by simp [outputLine, hexists, hread]⟩
      · exact .inr ⟨rel, hstale.mem_iff.mpr ((mem_stalePaths hlegal hclear hunlinked).mpr hrel), rfl⟩

theorem drift_eq_nil_iff (h : findDrift t outDir outputs = .ok drift) : drift = [] ↔ InSync t outDir outputs := by
  have hlists := findDrift_lists hlegal hclear hunlinked h
  rw [List.eq_nil_iff_forall_not_mem]
  constructor
  · intro hnone
    have htexts : ∀ rel text, outputs.get? rel = some text → readText t (joinPath outDir rel) = .ok text := by
      intro rel text hget
      have hexists : t.exists? (joinPath outDir rel) = true := by
        by_contra hmissing
        have hkey : rel ∈ outputs.keys := Dict.mem_keys.mpr ⟨text, hget⟩
        exact hnone _ ((hlists.mem _).mpr ⟨rel, .inl ⟨⟨hkey, by simpa using hmissing⟩, rfl⟩⟩)
      by_contra hread
      exact hnone _ ((hlists.mem _).mpr ⟨rel, .inr (.inl ⟨⟨text, hget, hexists, hread⟩, rfl⟩)⟩)
    refine ⟨fun path hpath => ⟨fun hfile => ?_, fun hkey => ?_⟩, htexts⟩
    · by_contra hkey
      exact hnone _ ((hlists.mem _).mpr ⟨pathText path, .inr (.inr ⟨⟨path, hpath, hfile, rfl, hkey⟩, rfl⟩)⟩)
    · obtain ⟨text, hget⟩ := Dict.mem_keys.mp hkey
      rw [← joinPath_pathText hpath.valid]
      exact isFile_of_readText (htexts _ text hget)
  · intro hsync line hline
    obtain ⟨rel, hlisted⟩ := (hlists.mem line).mp hline
    rcases hlisted with ⟨⟨hkey, hmissing⟩, -⟩ | ⟨⟨text, hget, -, hread⟩, -⟩ | ⟨⟨path, hpath, hfile, rfl, hkey⟩, -⟩
    · obtain ⟨text, hget⟩ := Dict.mem_keys.mp hkey
      rw [exists_of_isFile (isFile_of_readText (hsync.texts rel text hget))] at hmissing
      cases hmissing
    · exact hread (hsync.texts rel text hget)
    · exact hkey ((hsync.files path hpath).mp hfile)

omit hclear hunlinked

theorem findDrift_rewritten {t' : Tree} (h : Unobstructed t outDir) (hrewritten : Rewritten outDir outputs t t')
    (hcr : ∀ rel text, outputs.get? rel = some text → '\r' ∉ text) : findDrift t' outDir outputs = .ok [] := by
  have hclear' : t'.Clear outDir := ⟨fun q hq => .inr (hrewritten.parents q hq), h.way.2⟩
  have hlink : ∀ path target, outDir ++ [licensesDir] <+: path → t'.node path ≠ some (.link target) := by
    rintro path target ⟨below, rfl⟩
    rw [List.append_assoc]
    exact hrewritten.links _ (List.prefix_append _ _) target
  have hunlinked' : t'.Unlinked (outDir ++ [licensesDir]) := fun path target hbelow hnode =>
    absurd hnode (hlink path target hbelow)
  have hread : ∀ output ∈ outputs.items, t'.exists? (joinPath outDir output.1) = true ∧
      readText t' (joinPath outDir output.1) = .ok output.2 := by
    intro output hout
    have hkey : output.1 ∈ outputs.keys := List.mem_map_of_mem hout
    have hget : outputs.get? output.1 = some output.2 := Dict.get?_eq_some.mpr hout
    have hartifact := hlegal.artifact _ hkey
    have hfile := (hrewritten.files _ hartifact (.text output.2)).mpr
      ⟨output.2, by rw [hlegal.normal _ hkey, hget], rfl⟩
    obtain ⟨up, name, hparts, -⟩ := hartifact.split
    rw [hparts, ← List.append_assoc] at hfile
    rw [hlegal.join hkey, hparts, ← List.append_assoc]
    have htext := readText_file hfile
    rw [universalNewlines_of_no_cr (hcr _ _ hget)] at htext
    exact ⟨exists_of_isFile (isFile_of_readText htext), htext⟩
  obtain ⟨drift, hdrift⟩ : ∃ drift, findDrift t' outDir outputs = .ok drift := by
    have hlines : (sortedBy Prod.fst outputs.items).mapM (driftOf t' outDir) =
        .ok ((sortedBy Prod.fst outputs.items).map fun _ => []) := by
      rw [mapM_ok, List.forall₂_map_right_iff, List.forall₂_same]
      intro output hout
      obtain ⟨hexists, htext⟩ := hread output ((sortedBy_perm _ _).mem_iff.mp hout)
      simp [driftOf, hexists, htext]
    exact ⟨_, bind_ok.mpr ⟨_, hlines, rfl⟩⟩
  rw [hdrift]
  refine congrArg Except.ok (List.eq_nil_iff_forall_not_mem.mpr fun line hline => ?_)
  obtain ⟨rel, hlisted⟩ := ((findDrift_lists hlegal hclear' hunlinked' hdrift).mem line).mp hline
  rcases hlisted with ⟨⟨hkey, hmissing⟩, -⟩ | ⟨⟨text, hget, -, hchanged⟩, -⟩ | ⟨⟨path, hpath, hfile, rfl, hkey⟩, -⟩
  · obtain ⟨output, hout, rfl⟩ := List.mem_map.mp hkey
    rw [(hread output hout).1] at hmissing
    cases hmissing
  · exact hchanged (hread _ (Dict.get?_eq_some.mp hget)).2
  · rcases hpath.place with rfl | ⟨⟨below, rfl⟩, hne⟩
    · exact hkey hlegal.notice
    · have hbelow : below ≠ [] := by simpa using hne
      have hvalid : ∀ name ∈ below, ValidName name := fun name hname => hpath.valid name (by simp [hname])
      have hthere := node_of_isFile (licenses_dir hclear' hunlinked') hunlinked' hvalid hbelow (by simpa using hfile)
      obtain ⟨n, hn⟩ := Option.ne_none_iff_exists'.mp hthere
      cases n with
      | dir =>
        rw [List.append_assoc] at hn
        rw [isFile, stat_dir hn] at hfile
        cases hfile
      | file content =>
        rw [List.append_assoc] at hn
        obtain ⟨text, hget, -⟩ := (hrewritten.files _ hpath content).mp hn
        exact hkey (Dict.mem_keys.mpr ⟨text, hget⟩)
      | link target => exact hlink _ target (List.prefix_append _ _) hn

/-- The writer leaves the outputs and nothing else of the generator's, which
the check confirms; and the check tells a tree in sync from any other. -/
theorem writer_and_check_agree :
    (Unobstructed t outDir → (∀ rel text, outputs.get? rel = some text → '\r' ∉ text) →
      ∃ t', (writeOutputs outDir outputs).run t = .ok () t' ∧ Rewritten outDir outputs t t' ∧
        findDrift t' outDir outputs = .ok []) ∧
    (t.Clear outDir → t.Unlinked (outDir ++ [licensesDir]) → ∀ drift, findDrift t outDir outputs = .ok drift →
      (drift = [] ↔ InSync t outDir outputs) ∧ Lists t outDir outputs drift) := by
  constructor
  · intro h hcr
    obtain ⟨t', hrun, hrewritten⟩ := writeOutputs_run hlegal h
    exact ⟨t', hrun, hrewritten, findDrift_rewritten hlegal h hrewritten hcr⟩
  · intro hclear hunlinked drift h
    exact ⟨drift_eq_nil_iff hlegal hclear hunlinked h, findDrift_lists hlegal hclear hunlinked h⟩

end

def sampleDir : TreePath := ["licensing".toList, "aws".toList]

def sampleOutputs : Dict Str Str :=
  ⟨[(noticeKey, "notice".toList), ("LICENSES/a/LICENSE".toList, "text".toList)], by decide⟩

theorem legalPaths_sample : LegalPaths sampleOutputs where
  notice := by decide
  normal := by decide
  artifact rel hrel :=
    ⟨(by decide : ∀ rel ∈ sampleOutputs.keys, ∀ name ∈ parts rel, ValidName name) rel hrel,
      (by decide : ∀ rel ∈ sampleOutputs.keys,
        parts rel = [noticeKey] ∨ [licensesDir] <+: parts rel ∧ parts rel ≠ [licensesDir]) rel hrel⟩
  apart := by decide

theorem no_cr_sample (rel text : Str) (h : sampleOutputs.get? rel = some text) : '\r' ∉ text :=
  (by decide : ∀ output ∈ sampleOutputs.items, '\r' ∉ output.2) _ (Dict.get?_eq_some.mp h)

def sampleNodes (entries : List (TreePath × Node Content)) : List (TreePath × Node Content) :=
  [([], .dir), (["licensing".toList], .dir), (sampleDir, .dir), (["other".toList], .dir),
    (["other".toList, "file".toList], .file (.text "kept".toList))] ++
    entries.map fun e => (sampleDir ++ e.1, e.2)

/-- A NOTICE that changed, a license that is missing and one that is stale. -/
def staleTree : Tree :=
  ofNodes ⟨sampleNodes [([noticeKey], .file (.text "old".toList)), ([licensesDir], .dir),
    ([licensesDir, ['b']], .file .undecodable)], by decide⟩ (by decide) (by decide)

theorem unobstructed_stale : Unobstructed staleTree sampleDir where
  way := ⟨fun q hq => (by decide : ∀ q ∈ sampleDir.inits, staleTree.node q = none ∨ staleTree.node q = some .dir) q
    ((List.mem_inits _ _).mpr hq), by decide⟩
  notice n hn := by
    have hnode : staleTree.node (sampleDir ++ [noticeKey]) = some (.file (.text "old".toList)) := by decide
    exact ⟨_, Option.some.inj (hn.symm.trans hnode)⟩
  licenses n hn := by
    have hnode : staleTree.node (sampleDir ++ [licensesDir]) = some .dir := by decide
    exact Option.some.inj (hn.symm.trans hnode)

theorem unlinked_stale : staleTree.Unlinked (sampleDir ++ [licensesDir]) := by
  intro path target _ hlink
  have hitem := Dict.get?_eq_some.mp hlink
  simp [staleTree, ofNodes, sampleNodes] at hitem

def staleLines : List Str :=
  [missingLine "LICENSES/a/LICENSE".toList, changedLine noticeKey, staleLine "LICENSES/b".toList]

theorem writer_and_check_agree_stale :
    (∃ t', (writeOutputs sampleDir sampleOutputs).run staleTree = .ok () t' ∧
      Rewritten sampleDir sampleOutputs staleTree t' ∧ findDrift t' sampleDir sampleOutputs = .ok []) ∧
    (staleLines = [] ↔ InSync staleTree sampleDir sampleOutputs) ∧ Lists staleTree sampleDir sampleOutputs staleLines :=
  ⟨(writer_and_check_agree legalPaths_sample).1 unobstructed_stale no_cr_sample,
    (writer_and_check_agree legalPaths_sample).2 unobstructed_stale.way unlinked_stale staleLines (by decide +kernel)⟩

def otherFile : TreePath := ["other".toList, "file".toList]

def noticeIsDir : Tree := ofNodes ⟨sampleNodes [([noticeKey], .dir)], by decide⟩ (by decide) (by decide)

def licensesIsFile : Tree :=
  ofNodes ⟨sampleNodes [([licensesDir], .file (.text []))], by decide⟩ (by decide) (by decide)

def noticeIsLink : Tree := ofNodes ⟨sampleNodes [([noticeKey], .link otherFile)], by decide⟩ (by decide) (by decide)

def licensesIsLink : Tree :=
  ofNodes ⟨sampleNodes [([licensesDir], .link ["other".toList])], by decide⟩ (by decide) (by decide)

def linkBelow : Tree :=
  ofNodes ⟨sampleNodes [([noticeKey], .file (.text "notice".toList)), ([licensesDir], .dir),
    ([licensesDir, ['a']], .dir), ([licensesDir, ['a'], "LICENSE".toList], .file (.text "text".toList)),
    ([licensesDir, ['b']], .link ["other".toList])], by decide⟩ (by decide) (by decide)

def stopOf (x : Script Unit) (t : Tree) : Option Stop :=
  match x.run t with
  | .ok () _ => none
  | .error e _ => some e

def nodeAfter (x : Script Unit) (t : Tree) (path : TreePath) : Option (Option (Node Content)) :=
  match x.run t with
  | .ok () t' => some (t'.node path)
  | .error _ _ => none

theorem error_of_stopOf (h : stopOf x t = some e) : ∃ t', x.run t = .error e t' := by
  unfold stopOf at h
  split at h
  · cases h
  · rename_i hrun
    cases h
    exact ⟨_, hrun⟩

theorem ok_of_nodeAfter (h : nodeAfter x t path = some n) : ∃ t', x.run t = .ok () t' ∧ t'.node path = n := by
  unfold nodeAfter at h
  split at h
  · rename_i hrun
    exact ⟨_, hrun, Option.some.inj h⟩
  · cases h

theorem links_and_kinds_disagree :
    LegalPaths sampleOutputs ∧ (∀ rel text, sampleOutputs.get? rel = some text → '\r' ∉ text) ∧
    (∃ t', (writeOutputs sampleDir sampleOutputs).run noticeIsDir = .error (.os .isADirectory) t') ∧
    (∃ t', (writeOutputs sampleDir sampleOutputs).run licensesIsFile = .error (.os .notADirectory) t') ∧
    (∃ t', (writeOutputs sampleDir sampleOutputs).run noticeIsLink = .ok () t' ∧
      t'.node otherFile = some (.file (.text "notice".toList))) ∧
    (∃ t', (writeOutputs sampleDir sampleOutputs).run licensesIsLink = .ok () t' ∧ t'.node otherFile = none) ∧
    findDrift linkBelow sampleDir sampleOutputs = .ok [] ∧ ¬InSync linkBelow sampleDir sampleOutputs := by
  refine ⟨legalPaths_sample, no_cr_sample, error_of_stopOf ?_, error_of_stopOf ?_,
    ok_of_nodeAfter ?_, ok_of_nodeAfter ?_, ?_, ?_⟩
  · decide +kernel
  · decide +kernel
  · decide +kernel
  · decide +kernel
  · rfl
  · intro hsync
    have hfile : linkBelow.isFile (sampleDir ++ [licensesDir, ['b'], "file".toList]) = true := by decide +kernel
    have hkey := (hsync.files [licensesDir, ['b'], "file".toList] ⟨by decide, by decide⟩).mp hfile
    exact absurd hkey (by decide)

end LlmWorker.Licenses
