import LlmWorker.Licenses.Texts
import Mathlib.Data.List.TakeWhile

/-!
# The NOTICE read back

What the lines of the NOTICE say of the bundled files. Paths that keep together
on a line and apart from each other are read back from it as they are; others,
or a path whose end the last `rstrip()` takes away, are not.
-/

namespace LlmWorker.Licenses

open Python

def citation : Str := indent ++ licensesDir ++ ['/']

def pathsOn (line : Str) : List Str :=
  if citation <+: line then split ", ".toList (line.drop indent.length) else []

/-- The paths that a NOTICE cites, line by line. -/
def pathsIn (notice : Str) : List Str := (notice.splitOn '\n').flatMap pathsOn

/-- A path that can be told from what stands around it. -/
structure PlainPath (path : Str) : Prop where
  unbroken : '\n' ∉ path
  apart : ¬", ".toList <:+: path
  ends : rstrip path = path

instance (path : Str) : Decidable (PlainPath path) :=
  decidable_of_iff ('\n' ∉ path ∧ ¬", ".toList <:+: path ∧ rstrip path = path)
    ⟨fun h => ⟨h.1, h.2.1, h.2.2⟩, fun h => ⟨h.unbroken, h.apart, h.ends⟩⟩

-- ---------------------------------------------------------------------------
-- Lines
-- ---------------------------------------------------------------------------

theorem splitOn_append (x y : Str) : ∃ (before : List Str) (l l' : Str) (after : List Str),
    x.splitOn '\n' = before ++ [l] ∧ y.splitOn '\n' = l' :: after ∧
      (x ++ y).splitOn '\n' = before ++ (l ++ l') :: after := by
  induction x with
  | nil =>
    obtain ⟨l', after, hy⟩ := List.exists_cons_of_ne_nil (List.splitOn_ne_nil '\n' y)
    exact ⟨[], [], l', after, rfl, hy, hy⟩
  | cons c x ih =>
    obtain ⟨before, l, l', after, hx, hy, hxy⟩ := ih
    rw [List.cons_append, List.splitOn_cons_eq_if_modifyHead, List.splitOn_cons_eq_if_modifyHead, hx, hxy]
    split
    · exact ⟨[] :: before, l, l', after, rfl, hy, rfl⟩
    · cases before with
      | nil => exact ⟨[], c :: l, l', after, rfl, hy, rfl⟩
      | cons first before => exact ⟨(c :: first) :: before, l, l', after, rfl, hy, rfl⟩

theorem splitOn_join {lines : List Str} (hne : lines ≠ []) :
    (join ['\n'] lines).splitOn '\n' = lines.flatMap (List.splitOn '\n') := by
  induction lines with
  | nil => exact absurd rfl hne
  | cons line lines ih =>
    cases lines with
    | nil => simp [join]
    | cons next lines =>
      have hjoin : join ['\n'] (line :: next :: lines) = line ++ '\n' :: join ['\n'] (next :: lines) := by
        simp [join, List.intercalate]
      rw [hjoin, List.splitOn_append_cons_self, ih (by simp), ← List.flatMap_cons]

theorem mem_of_mem_splitOn {s l : Str} (h : l ∈ s.splitOn '\n') (hc : c ∈ l) : c ∈ s := by
  obtain ⟨a, b, hjoin⟩ := infix_join h ['\n']
  rw [join, List.intercalate_splitOn] at hjoin
  simp [hjoin, hc]

theorem rstrip_append (s : Str) : ∃ blank, s = rstrip s ++ blank ∧ ∀ c ∈ blank, isSpace c = true := by
  refine ⟨(s.reverse.takeWhile isSpace).reverse, ?_, fun c hc => ?_⟩
  · rw [rstrip, dropEnd, ← List.reverse_append, List.takeWhile_append_dropWhile, List.reverse_reverse]
  · exact List.mem_takeWhile_imp (List.mem_reverse.mp hc)

theorem rstrip_space {blank : Str} (h : ∀ c ∈ blank, isSpace c = true) : rstrip blank = [] := by
  rw [rstrip, dropEnd, List.reverse_eq_nil_iff, List.dropWhile_eq_nil_iff]
  exact fun c hc => h c (List.mem_reverse.mp hc)

theorem rstrip_append_eq {s blank : Str} (h : ∀ c ∈ blank, isSpace c = true)
    (hends : rstrip (s ++ blank) = s ++ blank) : blank = [] := by
  have hlength : (rstrip s).length ≤ s.length := by
    simpa [rstrip, dropEnd] using (List.dropWhile_sublist (p := isSpace) (l := s.reverse)).length_le
  rw [rstrip, dropEnd_append, ← rstrip, ← rstrip, if_pos (rstrip_space h)] at hends
  have heq := congrArg List.length hends
  rw [List.length_append] at heq
  exact List.length_eq_zero_iff.mp (by omega)

theorem splitOn_rstrip (s : Str) : ∃ (before : List Str) (l blank : Str) (after : List Str),
    (rstrip s).splitOn '\n' = before ++ [l] ∧ s.splitOn '\n' = before ++ (l ++ blank) :: after ∧
      (∀ c ∈ blank, isSpace c = true) ∧ ∀ l' ∈ after, ∀ c ∈ l', isSpace c = true := by
  obtain ⟨blank, hs, hblank⟩ := rstrip_append s
  obtain ⟨before, l, first, after, hl, hafter, hboth⟩ := splitOn_append (rstrip s) blank
  have hspace : ∀ l' ∈ first :: after, ∀ c ∈ l', isSpace c = true := fun l' hl' c hc =>
    hblank c (mem_of_mem_splitOn (hafter ▸ hl') hc)
  exact ⟨before, l, first, after, hl, (congrArg (List.splitOn '\n') hs).trans hboth, hspace first List.mem_cons_self,
    fun l' hl' => hspace l' (List.mem_cons_of_mem first hl')⟩

theorem splitOn_notice (s : Str) : (rstrip s ++ ['\n']).splitOn '\n' = (rstrip s).splitOn '\n' ++ [[]] :=
  List.splitOn_append_cons_self _ _

theorem mem_splitOn_notice {s line : Str} (h : line ∈ s.splitOn '\n') (hends : rstrip line = line) (hne : line ≠ []) :
    line ∈ (rstrip s ++ ['\n']).splitOn '\n' := by
  obtain ⟨before, l, blank, after, hstripped, hlines, hblank, hafter⟩ := splitOn_rstrip s
  rw [splitOn_notice, hstripped]
  rw [hlines] at h
  rcases List.mem_append.mp h with hbefore | hrest
  · simp [hbefore]
  · rcases List.mem_cons.mp hrest with rfl | hblanks
    · simp [rstrip_append_eq hblank hends]
    · exact absurd (hends.symm.trans (rstrip_space (hafter line hblanks))) hne

-- ---------------------------------------------------------------------------
-- Lines of paths
-- ---------------------------------------------------------------------------

theorem pathsOn_of_not (h : ¬citation <+: line) : pathsOn line = [] := if_neg h

theorem pathsIn_rstrip {s : Str} (h : ∀ line ∈ s.splitOn '\n', citation <+: line → rstrip line = line) :
    pathsIn (rstrip s ++ ['\n']) = (s.splitOn '\n').flatMap pathsOn := by
  obtain ⟨before, l, blank, after, hstripped, hlines, hblank, hafter⟩ := splitOn_rstrip s
  have hnone : after.flatMap pathsOn = [] := by
    refine List.flatMap_eq_nil_iff.mpr fun l' hl' => pathsOn_of_not fun hpre => ?_
    have hletter : 'L' ∈ l' := hpre.subset (by decide)
    exact absurd (hafter l' hl' 'L' hletter) (by decide)
  have hlast : pathsOn (l ++ blank) = pathsOn l := by
    by_cases hpre : citation <+: l ++ blank
    · have hends := h (l ++ blank) (by simp [hlines]) hpre
      rw [rstrip_append_eq hblank hends, List.append_nil]
    · have hnot : ¬citation <+: l := fun hpre' => hpre (hpre'.trans (List.prefix_append l blank))
      rw [pathsOn_of_not hpre, pathsOn_of_not hnot]
  have hempty : pathsOn [] = [] := pathsOn_of_not (by decide)
  simp only [pathsIn, splitOn_notice, hstripped, hlines, List.flatMap_append, List.flatMap_cons, List.flatMap_nil,
    hnone, hlast, hempty, List.append_nil]

theorem citation_blank : ∀ i < indent.length, citation[i]? = some ' ' := by decide

theorem not_citation {l : Str} (hi : i < indent.length) (h : l[i]? ≠ some ' ') : ¬citation <+: l := by
  rintro ⟨rest, rfl⟩
  have hlength : i < citation.length := hi.trans (by decide)
  rw [List.getElem?_append_left hlength, citation_blank i hi] at h
  exact h rfl

def Entry.pathLine (u : Unicode) (e : Entry) : Str := indent ++ join ", ".toList (e.cited u)

section

variable {u : Unicode} {e : Entry}

theorem cited_starts (hpath : path ∈ e.cited u) : licensesDir ++ ['/'] <+: path := by
  obtain ⟨file, -, rfl⟩ := List.mem_map.mp hpath
  exact ⟨canonicalDir u e.package.name ++ '/' :: file, by simp [artifactPath]⟩

theorem pathLine_starts (hne : e.cited u ≠ []) : citation <+: e.pathLine u := by
  obtain ⟨path, paths, hcons⟩ := List.exists_cons_of_ne_nil hne
  have hmem : path ∈ e.cited u := by simp [hcons]
  obtain ⟨rest, hpath⟩ := cited_starts hmem
  obtain ⟨b, hb⟩ := join_cons_eq path paths ", ".toList
  exact ⟨rest ++ b, by rw [Entry.pathLine, hcons, hb, ← hpath]; simp [citation]⟩

variable (hplain : ∀ path ∈ e.cited u, PlainPath path)

include hplain

theorem pathLine_unbroken : '\n' ∉ e.pathLine u := by
  intro hmem
  rcases List.mem_append.mp hmem with hindent | hjoin
  · exact absurd hindent (by decide)
  · rcases mem_join hjoin with hsep | ⟨path, hpath, hc⟩
    · exact absurd hsep (by decide)
    · exact (hplain path hpath).unbroken hc

theorem pathLine_ends (hne : e.cited u ≠ []) : rstrip (e.pathLine u) = e.pathLine u := by
  obtain ⟨before, path, hcited⟩ := (List.eq_nil_or_concat' _).resolve_left hne
  obtain ⟨a, ha⟩ := join_append_eq before path [] ", ".toList
  have hpath : path ∈ e.cited u := by simp [hcited]
  have hends : rstrip path = path := (hplain path hpath).ends
  have hnonempty : path ≠ [] :=
    List.ne_nil_of_mem ((cited_starts hpath).subset (List.mem_append_right _ List.mem_cons_self))
  have hline : e.pathLine u = indent ++ a ++ path := by
    rw [Entry.pathLine, hcited, ha]
    simp [join]
  unfold rstrip at hends ⊢
  rw [hline, dropEnd_append, hends, if_neg hnonempty]

theorem pathsOn_pathLine (hne : e.cited u ≠ []) : pathsOn (e.pathLine u) = e.cited u := by
  have hsplit : split ", ".toList (join ", ".toList (e.cited u)) = e.cited u :=
    split_join (by decide) hne fun path hpath => (hplain path hpath).apart
  rw [pathsOn, if_pos (pathLine_starts hne), Entry.pathLine, List.drop_left, hsplit]

end

-- ---------------------------------------------------------------------------
-- The lines of an entry
-- ---------------------------------------------------------------------------

/-- Every other text of an entry is on one line, and its URL is no path. -/
structure Entry.Clear (e : Entry) : Prop where
  name : '\n' ∉ e.package.name
  version : '\n' ∉ e.package.version
  declared : '\n' ∉ declaredLicense e.package
  url : '\n' ∉ e.url
  linked : ¬licensesDir ++ ['/'] <+: e.url

section

variable {u : Unicode} {e : Entry}

theorem splitlinesFrom_unbroken (hline : '\n' ∉ line) (h : l ∈ splitlinesFrom line s) : '\n' ∉ l := by
  fun_induction splitlinesFrom line s with
  | case1 => cases h
  | case2 line =>
    obtain rfl := List.mem_singleton.mp h
    simpa using hline
  | case3 line s ih =>
    rcases List.mem_cons.mp h with rfl | h
    · simpa using hline
    · exact ih (by simp) h
  | case4 line d s hcr hbreak ih =>
    rcases List.mem_cons.mp h with rfl | h
    · simpa using hline
    · exact ih (by simp) h
  | case5 line d s hcr hbreak ih =>
    have hne : d ≠ '\n' := by
      rintro rfl
      exact hbreak (by decide)
    exact ih (by simp [hline, hne.symm]) h

theorem copyrightLine_clear {files : Dict Str Str} (h : copyrightLine u files ≠ []) :
    '\n' ∉ copyrightLine u files ∧ ¬licensesDir ++ ['/'] <+: copyrightLine u files := by
  obtain ⟨file, hfile, raw, hraw, hline⟩ := copyrightLine_ok h
  obtain ⟨heq, hstarts⟩ := copyrightOf_eq hline
  refine ⟨fun hc => ?_, ?_⟩
  · rw [heq] at hc
    exact splitlinesFrom_unbroken (by simp) hraw (mem_strip (mem_dropEnd hc))
  · -- its lower case starts with a `c`, and that of a path with an `l`
    rintro ⟨rest, hrest⟩
    rw [← hrest] at hstarts
    have hlower : u.lower (licensesDir ++ ['/'] ++ rest) = 'l' :: u.lowerFrom ['L'] ("ICENSES/".toList ++ rest) :=
      Unicode.lower_ascii_cons (by decide) _ _
    rw [hlower] at hstarts
    obtain ⟨rest', hrest'⟩ := hstarts
    exact absurd (List.cons.inj hrest').1 (by decide)

theorem natText2_starts (n : Nat) : ∃ k ≤ 1, ∃ d rest, natText2 n = List.replicate k ' ' ++ d :: rest ∧ d ≠ ' ' := by
  obtain ⟨d, rest, hdigits⟩ := List.exists_cons_of_ne_nil (Nat.toDigits_ne_nil (n := n) (b := 10))
  refine ⟨2 - (Nat.toDigits 10 n).length, by simp [hdigits], d, rest, by rw [natText2, hdigits], ?_⟩
  rintro rfl
  have hdigit := Nat.isDigit_of_mem_toDigits (n := n) (b := 10) (c := ' ') (by decide) (by decide) (by simp [hdigits])
  exact absurd hdigit (by decide)

theorem number_not_citation (n : Nat) (rest : Str) : ¬citation <+: "  ".toList ++ natText2 n ++ rest := by
  obtain ⟨k, hk, d, rest', htext, hd⟩ := natText2_starts n
  have hhead : "  ".toList ++ natText2 n ++ rest = List.replicate (2 + k) ' ' ++ d :: (rest' ++ rest) := by
    rw [htext, List.replicate_add]
    simp
  have hat : (List.replicate (2 + k) ' ' ++ d :: (rest' ++ rest))[2 + k]? = some d := by
    rw [List.getElem?_append_right (by simp)]
    simp
  rw [hhead]
  refine not_citation (i := 2 + k) (by simp [indent]; omega) ?_
  rw [hat]
  simpa using hd

theorem indent_not_citation {s : Str} (h : ¬licensesDir ++ ['/'] <+: s) : ¬citation <+: indent ++ s := by
  rw [citation, List.append_assoc, List.prefix_append_right_inj]
  exact h

theorem lines_front (u : Unicode) (e : Entry) (family : Str) : ∃ front,
    e.lines u family = front ++ (if e.cited u = [] then [] else [e.pathLine u]) ∧
      (e.Clear → ∀ line ∈ front, '\n' ∉ line ∧ ¬citation <+: line) := by
  have hpaths : join ", ".toList (e.cited u) = [] ↔ e.cited u = [] := by
    constructor
    · intro hjoin
      by_contra hne
      have hlength := (pathLine_starts hne).length_le
      rw [Entry.pathLine, hjoin] at hlength
      exact absurd hlength (by decide)
    · intro hnil
      simp [hnil, join]
  refine ⟨_, congrArg (_ ++ ·) (if_congr hpaths rfl rfl), fun hclear line hline => ?_⟩
  have hnumber : '\n' ∉ natText2 e.number := return_not_mem_natText2 (.inr rfl) _
  rcases List.mem_append.mp hline with hline | hline
  · rcases List.mem_append.mp hline with hline | hline
    · obtain rfl := List.mem_singleton.mp hline
      have hhead (s : Str) : "  ".toList ++ natText2 e.number ++ ". ".toList ++ e.package.name ++
          ' ' :: e.package.version ++ s = "  ".toList ++ natText2 e.number ++ (". ".toList ++ (e.package.name ++
            ' ' :: (e.package.version ++ s))) := by simp
      split
      · rw [← List.append_nil (_ ++ _), hhead]
        refine ⟨?_, number_not_citation _ _⟩
        simp [hnumber, hclear.name, hclear.version]
      · rw [List.append_assoc, List.append_assoc, hhead]
        refine ⟨?_, number_not_citation _ _⟩
        simp [hnumber, hclear.name, hclear.version, hclear.declared]
    · split at hline
      · cases hline
      · rename_i hne
        obtain rfl := List.mem_singleton.mp hline
        obtain ⟨hunbroken, hlinked⟩ := copyrightLine_clear hne
        exact ⟨by simpa [indent] using hunbroken, indent_not_citation hlinked⟩
  · split at hline
    · cases hline
    · obtain rfl := List.mem_singleton.mp hline
      exact ⟨by simpa [indent] using hclear.url, indent_not_citation hclear.linked⟩

/-- A line that the end of the text leaves alone. -/
def Kept (line : Str) : Prop := '\n' ∉ line ∧ (citation <+: line → rstrip line = line)

theorem kept_of_not {lines : List Str} (h : ∀ line ∈ lines, '\n' ∉ line ∧ ¬citation <+: line) :
    (∀ line ∈ lines, Kept line) ∧ lines.flatMap pathsOn = [] :=
  ⟨fun line hline => ⟨(h line hline).1, fun hpre => absurd hpre (h line hline).2⟩,
    List.flatMap_eq_nil_iff.mpr fun line hline => pathsOn_of_not (h line hline).2⟩

variable (hplain : ∀ path ∈ e.cited u, PlainPath path)

include hplain

theorem lines_read (hclear : e.Clear) (family : Str) :
    (∀ line ∈ e.lines u family, Kept line) ∧ (e.lines u family).flatMap pathsOn = e.cited u := by
  obtain ⟨front, heq, hfront⟩ := lines_front u e family
  obtain ⟨hkept, hnone⟩ := kept_of_not (hfront hclear)
  rw [heq, List.flatMap_append, hnone, List.nil_append]
  by_cases hne : e.cited u = []
  · rw [if_pos hne, List.append_nil, hne]
    exact ⟨hkept, rfl⟩
  · rw [if_neg hne]
    refine ⟨fun line hline => ?_, by simpa using pathsOn_pathLine hplain hne⟩
    rcases List.mem_append.mp hline with hline | hline
    · exact hkept line hline
    · obtain rfl := List.mem_singleton.mp hline
      exact ⟨pathLine_unbroken hplain, fun _ => pathLine_ends hplain hne⟩

omit hplain in
theorem pathLine_mem (hne : e.cited u ≠ []) (family : Str) : e.pathLine u ∈ e.lines u family := by
  obtain ⟨front, heq, -⟩ := lines_front u e family
  simp [heq, hne]

end

-- ---------------------------------------------------------------------------
-- The whole text
-- ---------------------------------------------------------------------------

section

variable {u : Unicode} {secs : List Section} (cloud : Str) (hasUv : Bool)

/-- The lines of a NOTICE before its end is stripped. -/
def noticeLines (u : Unicode) (cloud : Str) (secs : List Section) (hasUv : Bool) : List Str :=
  preamble cloud ++ secs.flatMap (Section.lines u) ++ if hasUv then uvLines else []

theorem noticeText_eq :
    noticeText u cloud secs hasUv = rstrip (join ['\n'] (noticeLines u cloud secs hasUv)) ++ ['\n'] := rfl

theorem splitOn_noticeLines : (join ['\n'] (noticeLines u cloud secs hasUv)).splitOn '\n' =
    (noticeLines u cloud secs hasUv).flatMap (List.splitOn '\n') :=
  splitOn_join (List.cons_ne_nil _ _)

theorem pathLine_mem_noticeText (hsec : sec ∈ secs) (he : e ∈ sec.entries)
    (hplain : ∀ path ∈ e.cited u, PlainPath path) (hne : e.cited u ≠ []) :
    e.pathLine u ∈ (noticeText u cloud secs hasUv).splitOn '\n' := by
  have hends := pathLine_ends hplain hne
  have hnonempty : e.pathLine u ≠ [] := by simp [Entry.pathLine, indent]
  refine mem_splitOn_notice ?_ hends hnonempty
  show _ ∈ (join ['\n'] (noticeLines u cloud secs hasUv)).splitOn '\n'
  have hmem : e.pathLine u ∈ sec.lines u :=
    List.mem_append_left _ (List.mem_cons_of_mem _ (List.mem_flatMap.mpr ⟨e, he, pathLine_mem hne _⟩))
  rw [splitOn_noticeLines, List.mem_flatMap]
  refine ⟨e.pathLine u, ?_, by simp [List.splitOn_eq_singleton (pathLine_unbroken hplain)]⟩
  exact List.mem_append_left _ (List.mem_append_right _ (List.mem_flatMap.mpr ⟨sec, hsec, hmem⟩))

theorem preamble_read (hcloud : '\n' ∉ cloud) :
    (∀ line ∈ preamble cloud, Kept line) ∧ (preamble cloud).flatMap pathsOn = [] := by
  have hhead : ∀ l ∈ preamble cloud, l[0]? ≠ some ' ' := by
    simp only [preamble, List.map_cons, List.map_nil, List.cons_append, List.nil_append]
    repeat rw [String.toList_ofList]
    simp [rule, join, List.intercalate]
  exact kept_of_not fun line hline =>
    ⟨return_not_mem_preamble (.inr rfl) hcloud line hline, not_citation (by decide) (hhead line hline)⟩

theorem uvLines_read : (∀ line ∈ uvLines, Kept line) ∧ uvLines.flatMap pathsOn = [] := by
  have hthird : ∀ l ∈ uvLines, l[2]? ≠ some ' ' := by
    simp only [uvLines, List.map_cons, List.map_nil]
    repeat rw [String.toList_ofList]
    simp
  exact kept_of_not fun line hline =>
    ⟨return_not_mem_uvLines (.inr rfl) line hline, not_citation (by decide) (hthird line hline)⟩

variable (hfamilies : ∀ sec ∈ secs, sec.family ∈ familyNames)
  (hplain : ∀ sec ∈ secs, ∀ e ∈ sec.entries, ∀ path ∈ e.cited u, PlainPath path)
  (hclear : ∀ sec ∈ secs, ∀ e ∈ sec.entries, e.Clear)

include hfamilies hplain hclear

theorem sections_read : (∀ line ∈ secs.flatMap (Section.lines u), Kept line) ∧
    (secs.flatMap (Section.lines u)).flatMap pathsOn = citedPaths u secs := by
  have hheading : ∀ family ∈ familyNames, '\n' ∉ family ∧ family[0]? ≠ some ' ' := by decide
  have hblank : Kept [] ∧ pathsOn [] = [] := ⟨⟨by simp, fun _ => rfl⟩, pathsOn_of_not (by decide)⟩
  have hsection : ∀ sec ∈ secs, (∀ line ∈ sec.lines u, Kept line) ∧
      (sec.lines u).flatMap pathsOn = sec.entries.flatMap (Entry.cited u) := by
    intro sec hsec
    obtain ⟨hunbroken, hhead⟩ := hheading sec.family (hfamilies sec hsec)
    have hfamily : ¬citation <+: sec.family := not_citation (by decide) hhead
    have hentry : ∀ e ∈ sec.entries, (∀ line ∈ e.lines u sec.family, Kept line) ∧
        (e.lines u sec.family).flatMap pathsOn = e.cited u := fun e he =>
      lines_read (hplain sec hsec e he) (hclear sec hsec e he) sec.family
    constructor
    · simp only [Section.lines, List.forall_mem_append, List.forall_mem_cons, List.mem_flatMap]
      refine ⟨⟨⟨hunbroken, fun hpre => absurd hpre hfamily⟩, ?_⟩, hblank.1, by simp⟩
      rintro line ⟨e, he, hline⟩
      exact (hentry e he).1 line hline
    · have hentries : (sec.entries.flatMap (Entry.lines u sec.family)).flatMap pathsOn =
          sec.entries.flatMap (Entry.cited u) := by
        rw [List.flatMap_assoc]
        exact List.flatMap_congr fun e he => (hentry e he).2
      simp only [Section.lines, List.flatMap_append, List.flatMap_cons, List.flatMap_nil, pathsOn_of_not hfamily,
        hentries, hblank.2, List.nil_append, List.append_nil]
  constructor
  · intro line hline
    obtain ⟨sec, hsec, hline⟩ := List.mem_flatMap.mp hline
    exact (hsection sec hsec).1 line hline
  · rw [List.flatMap_assoc]
    exact List.flatMap_congr fun sec hsec => (hsection sec hsec).2

/-- The paths read off the text of a NOTICE are those its entries cite, in their order. -/
theorem pathsIn_noticeText (hcloud : '\n' ∉ cloud) : pathsIn (noticeText u cloud secs hasUv) = citedPaths u secs := by
  obtain ⟨hpreamble, hnone⟩ := preamble_read cloud hcloud
  obtain ⟨hsections, hcited⟩ := sections_read hfamilies hplain hclear
  have huv : (∀ line ∈ if hasUv then uvLines else [], Kept line) ∧
      (if hasUv then uvLines else []).flatMap pathsOn = [] := by
    cases hasUv with
    | true => exact uvLines_read
    | false => simp
  have hkept : ∀ line ∈ noticeLines u cloud secs hasUv, Kept line := by
    simp only [noticeLines, List.forall_mem_append]
    exact ⟨⟨hpreamble, hsections⟩, huv.1⟩
  have hlines : (join ['\n'] (noticeLines u cloud secs hasUv)).splitOn '\n' = noticeLines u cloud secs hasUv := by
    rw [splitOn_noticeLines]
    have hsingle : ∀ line ∈ noticeLines u cloud secs hasUv, line.splitOn '\n' = [line] := fun line hline =>
      List.splitOn_eq_singleton (hkept line hline).1
    rw [List.flatMap_congr hsingle, List.flatMap_singleton']
  rw [noticeText_eq, pathsIn_rstrip (by rw [hlines]; exact fun line hline => (hkept line hline).2), hlines, noticeLines,
    List.flatMap_append, List.flatMap_append, hnone, hcited, huv.2, List.nil_append, List.append_nil]

end

theorem infix_noticeText (hsec : sec ∈ secs) (hline : line ∈ sec.lines u) (cloud : Str) (hasUv : Bool) :
    rstrip line <:+: noticeText u cloud secs hasUv := by
  have hmem : line ∈ preamble cloud ++ secs.flatMap (Section.lines u) ++ if hasUv then uvLines else [] :=
    List.mem_append_left _ (List.mem_append_right _ (List.mem_flatMap.mpr ⟨sec, hsec, hline⟩))
  obtain ⟨a, b, hjoin⟩ := infix_join hmem "\n".toList
  rw [noticeText, hjoin]
  exact (dropEnd_infix_self isSpace a line b).trans (List.prefix_append _ _).isInfix

-- ---------------------------------------------------------------------------
-- The NOTICE and the bundled files
-- ---------------------------------------------------------------------------

section

variable {u : Unicode} {hostname : Str → Result (Option Str)} {packages : List Package}
  (hslash : ∀ pkg ∈ packages, '/' ∉ pkg.name)
  (hdistinct : (packages.map fun pkg => canonicalDir u pkg.name).Nodup)

include hslash hdistinct

/-- Each package is in one section, that of its family, and the paths the
sections cite are those of the bundled files, each of one package and one
license file of it, whose text it holds. The paths of a package stand on a line
of the NOTICE and are read back from it; where no other line looks like one of
paths, those read off the whole text are all of them. Only `urlparse` can keep
the outputs from being built. -/
theorem notice_matches_files
    (hplain : ∀ pkg ∈ packages, ∀ file ∈ pkg.licenseFiles.keys, PlainPath (artifactPath u pkg file))
    (cloud : Str) (hasUv : Bool) :
    (∀ e, buildOutputs u hostname cloud packages hasUv = .error e →
      ∃ pkg ∈ packages, bestUrl u hostname pkg = .error e) ∧
    ∀ outputs, buildOutputs u hostname cloud packages hasUv = .ok outputs →
      ∃ secs, outputs.get? noticeKey = some (noticeText u cloud secs hasUv) ∧
        (∀ sec ∈ secs, ∀ line ∈ sec.lines u, rstrip line <:+: noticeText u cloud secs hasUv) ∧
        (secs.map (·.family)).Nodup ∧
        (secs.flatMap Section.packages).Perm packages ∧
        (∀ sec ∈ secs, ∀ e ∈ sec.entries, licenseFamily u (declaredLicense e.package) = sec.family) ∧
        (∀ sec ∈ secs, ∀ e ∈ sec.entries, e.cited u ≠ [] →
          e.pathLine u ∈ (noticeText u cloud secs hasUv).splitOn '\n' ∧ pathsOn (e.pathLine u) = e.cited u) ∧
        ((∀ sec ∈ secs, ∀ e ∈ sec.entries, e.Clear) → '\n' ∉ cloud →
          pathsIn (noticeText u cloud secs hasUv) = citedPaths u secs) ∧
        (∀ path, path ∈ citedPaths u secs ↔ path ∈ outputs.keys ∧ path ≠ noticeKey) ∧
        ∀ path ∈ citedPaths u secs, ∃ pkg file, Cites u packages pkg file path ∧
          outputs.get? path = pkg.licenseFiles.get? file ∧
          ∀ pkg' file', Cites u packages pkg' file' path → pkg' = pkg ∧ file' = file := by
  refine ⟨fun e he => ?_, fun outputs houtputs => ?_⟩
  · rcases bind_error.mp he with hnotice | ⟨notice, -, hpure⟩
    · rcases bind_error.mp hnotice with hsecs | ⟨secs, -, hpure⟩
      · exact sections_error hsecs
      · cases hpure
    · cases hpure
  obtain ⟨secs, hsecs, hget⟩ := get_buildOutputs hslash hdistinct houtputs
  have hfile {pkg : Package} {file text : Str} (hpkg : pkg ∈ packages) (hf : pkg.licenseFiles.get? file = some text) :
      outputs.get? (artifactPath u pkg file) = some text :=
    (hget _ _).mpr (.inr ⟨pkg, hpkg, file, hf, rfl⟩)
  have hcited : ∀ sec ∈ secs, ∀ e ∈ sec.entries, ∀ path ∈ e.cited u, PlainPath path := by
    intro sec hsec e he path hpath
    obtain ⟨file, hfile, rfl⟩ := List.mem_map.mp hpath
    exact hplain e.package ((mem_sections hsecs hsec).2 e he).1 file ((sortedBy_perm _ _).mem_iff.mp hfile)
  have hfamilies : ∀ sec ∈ secs, sec.family ∈ familyNames := fun sec hsec => (mem_sections hsecs hsec).1
  refine ⟨secs, (hget _ _).mpr (.inl ⟨rfl, rfl⟩),
    fun sec hsec line hline => infix_noticeText hsec hline cloud hasUv, headings_nodup hsecs, sections_packages hsecs,
    fun sec hsec e he => family_of_entry hsecs hsec he, fun sec hsec e he hne => ?_,
    fun hclear hcloud => pathsIn_noticeText cloud hasUv hfamilies hcited hclear hcloud, fun path => ?_,
    fun path hpath => ?_⟩
  · exact ⟨pathLine_mem_noticeText cloud hasUv hsec he (hcited sec hsec e he) hne,
      pathsOn_pathLine (hcited sec hsec e he) hne⟩
  · rw [mem_citedPaths hsecs]
    constructor
    · rintro ⟨pkg, file, hpkg, hkey, rfl⟩
      obtain ⟨text, htext⟩ := Dict.mem_keys.mp hkey
      exact ⟨Dict.mem_keys.mpr ⟨text, hfile hpkg htext⟩, artifactPath_ne_notice u pkg file⟩
    · rintro ⟨hkey, hne⟩
      obtain ⟨text, htext⟩ := Dict.mem_keys.mp hkey
      rcases (hget _ _).mp htext with ⟨hnotice, -⟩ | ⟨pkg, hpkg, file, hf, rfl⟩
      · exact absurd hnotice hne
      · exact ⟨pkg, file, hpkg, Dict.mem_keys.mpr ⟨text, hf⟩, rfl⟩
  · obtain ⟨pkg, file, hpkg, hkey, rfl⟩ := (mem_citedPaths hsecs).mp hpath
    obtain ⟨text, htext⟩ := Dict.mem_keys.mp hkey
    refine ⟨pkg, file, ⟨hpkg, hkey, rfl⟩, by rw [hfile hpkg htext, htext], ?_⟩
    rintro pkg' file' ⟨hpkg', -, heq⟩
    obtain ⟨hp, hf⟩ := artifactPath_inj hslash hdistinct hpkg hpkg' heq
    exact ⟨hp.symm, hf.symm⟩

end

theorem notice_matches_twoPackages :
    ∃ outputs secs, buildOutputs sampleUnicode noHost "aws".toList twoPackages false = .ok outputs ∧
      (secs.flatMap Section.packages).Perm twoPackages ∧
      (∀ sec ∈ secs, ∀ e ∈ sec.entries, e.cited sampleUnicode ≠ [] →
        e.pathLine sampleUnicode ∈ (noticeText sampleUnicode "aws".toList secs false).splitOn '\n' ∧
          pathsOn (e.pathLine sampleUnicode) = e.cited sampleUnicode) ∧
      ∀ path, path ∈ citedPaths sampleUnicode secs ↔ path ∈ outputs.keys ∧ path ≠ noticeKey := by
  obtain ⟨herror, hok⟩ :=
    @notice_matches_files sampleUnicode noHost twoPackages (by decide) (by decide) (by decide) "aws".toList false
  cases houtputs : buildOutputs sampleUnicode noHost "aws".toList twoPackages false with
  | error e =>
    obtain ⟨pkg, hpkg, hurl⟩ := herror e houtputs
    rw [(by decide : ∀ pkg ∈ twoPackages, bestUrl sampleUnicode noHost pkg = .ok []) pkg hpkg] at hurl
    cases hurl
  | ok outputs =>
    obtain ⟨secs, -, -, -, hperm, -, hlines, -, hcited, -⟩ := hok outputs houtputs
    exact ⟨outputs, secs, rfl, hperm, hlines, hcited⟩

def onePackage (files : List String) : List Package := [samplePackage "a" "MIT" (files.map fun file => (file, ""))]

def onePackageOutputs (files : List String) : Result (Dict Str Str) :=
  buildOutputs sampleUnicode noHost "aws".toList (onePackage files) false

/-- A blank at the end of the last path is lost, two files are cited as one
whose name joins theirs, and a name of two lines stands on no line. -/
theorem odd_names_misread :
    (∃ outputs notice, onePackageOutputs ["licenses/LICENSE "] = .ok outputs ∧ outputs.get? noticeKey = some notice ∧
      "LICENSES/a/licenses/LICENSE ".toList ∈ outputs.keys ∧ ¬"LICENSES/a/licenses/LICENSE ".toList <:+: notice) ∧
    (∃ outputs outputs', onePackageOutputs ["x, LICENSES/a/y"] = .ok outputs ∧
      onePackageOutputs ["x", "y"] = .ok outputs' ∧ outputs.get? noticeKey = outputs'.get? noticeKey ∧
      "LICENSES/a/x".toList ∈ outputs'.keys ∧ "LICENSES/a/x".toList ∉ outputs.keys) ∧
    ∃ outputs notice, onePackageOutputs ["x\ny"] = .ok outputs ∧ outputs.get? noticeKey = some notice ∧
      "LICENSES/a/x\ny".toList ∈ outputs.keys ∧ ∀ line ∈ notice.splitOn '\n', ¬"LICENSES/a/x\ny".toList <:+: line := by
  -- the literals of the preamble are rewritten to their characters first: the kernel decodes them slowly
  refine ⟨⟨_, _, rfl, rfl, ?_, ?_⟩, ⟨_, _, rfl, rfl, ?_, ?_, ?_⟩, ⟨_, _, rfl, rfl, ?_, ?_⟩⟩
  all_goals
    simp only [noticeText, preamble, List.map_cons, List.map_nil, List.cons_append, List.nil_append]
    repeat rw [String.toList_ofList]
    decide +kernel

end LlmWorker.Licenses
