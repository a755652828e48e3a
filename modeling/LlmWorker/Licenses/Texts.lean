import LlmWorker.Licenses.Artifacts
import LlmWorker.Licenses.Script

/-!
# The characters of the generated texts

Every character of a generated text is one of the fixed texts of the generator
or one that the packages hold, up to the case of a directory name.
-/

namespace LlmWorker.Licenses

open Python

-- ---------------------------------------------------------------------------
-- Parts of texts
-- ---------------------------------------------------------------------------

theorem mem_join (h : c ∈ join sep l) : c ∈ sep ∨ ∃ s ∈ l, c ∈ s := by
  induction l with
  | nil => simp [join] at h
  | cons s l ih =>
    cases l with
    | nil => exact .inr ⟨s, by simp, by simpa [join] using h⟩
    | cons s' l =>
      have hcons : join sep (s :: s' :: l) = s ++ (sep ++ join sep (s' :: l)) := by simp [join, List.intercalate]
      rw [hcons, List.mem_append, List.mem_append] at h
      rcases h with h | h | h
      · exact .inr ⟨s, by simp, h⟩
      · exact .inl h
      · rcases ih h with hsep | ⟨t, ht, hc⟩
        · exact .inl hsep
        · exact .inr ⟨t, List.mem_cons_of_mem s ht, hc⟩

theorem mem_dropEnd (h : c ∈ dropEnd p s) : c ∈ s := by
  have hmem : c ∈ s.reverse.dropWhile p := by simpa [dropEnd] using h
  simpa using (List.dropWhile_sublist p).subset hmem

theorem mem_strip (h : c ∈ strip s) : c ∈ s := (List.dropWhile_sublist isSpace).subset (mem_dropEnd h)

theorem mem_first {line rest : Str} {ls : List Str} (h : l ∈ line.reverse :: ls) (hc : c ∈ l)
    (hrest : l ∈ ls → c ∈ ([] : Str) ∨ c ∈ rest) :
    c ∈ line ∨ c ∈ rest := by
  rcases List.mem_cons.mp h with rfl | h
  · exact .inl (List.mem_reverse.mp hc)
  · exact .inr ((hrest h).resolve_left (by simp))

theorem mem_splitlinesFrom (h : l ∈ splitlinesFrom line s) (hc : c ∈ l) : c ∈ line ∨ c ∈ s := by
  fun_induction splitlinesFrom line s with
  | case1 => cases h
  | case2 line => exact mem_first h hc (by simp)
  | case3 line s ih =>
    exact (mem_first h hc ih).imp_right fun hc => List.mem_cons_of_mem _ (List.mem_cons_of_mem _ hc)
  | case4 line d s hcr hbreak ih => exact (mem_first h hc ih).imp_right (List.mem_cons_of_mem d)
  | case5 line d s hcr hbreak ih =>
    rcases ih h with hline | hrest
    · exact (List.mem_cons.mp hline).elim (fun heq => .inr (by simp [heq])) .inl
    · exact .inr (List.mem_cons_of_mem d hrest)

theorem mem_splitFrom (h : l ∈ splitFrom sep skip part s) (hc : c ∈ l) : c ∈ part ∨ c ∈ s := by
  fun_induction splitFrom sep skip part s with
  | case1 => exact mem_first h hc (by simp)
  | case2 part d s skip ih => exact (ih h).imp_right (List.mem_cons_of_mem d)
  | case3 part d s hsep ih => exact (mem_first h hc ih).imp_right (List.mem_cons_of_mem d)
  | case4 part d s hsep ih =>
    rcases ih h with hpart | hrest
    · exact (List.mem_cons.mp hpart).elim (fun heq => .inr (by simp [heq])) .inl
    · exact .inr (List.mem_cons_of_mem d hrest)

theorem mem_dropRepoTail (h : c ∈ dropRepoTail s) : c ∈ s ∨ c = '\n' := by
  induction s with
  | nil => exact .inl h
  | cons d s ih =>
    rw [dropRepoTail] at h
    split at h
    · split at h
      · exact .inr (by simpa using h)
      · simp at h
    · rcases List.mem_cons.mp h with rfl | h
      · exact .inl (by simp)
      · exact (ih h).imp_left (List.mem_cons_of_mem d)

theorem mem_partition (h : c ∈ (partition sep s).2) : c ∈ s :=
  (List.dropWhile_sublist _).subset (List.mem_of_mem_drop h)

theorem mem_mapM {f : α → Except ε β} {l : List α} (h : l.mapM f = .ok bs) (hb : b ∈ bs) : ∃ a ∈ l, f a = .ok b := by
  have hall := mapM_ok.mp h
  clear h
  induction hall with
  | nil => cases hb
  | @cons a b' l bs ha _ ih =>
    cases hb with
    | head => exact ⟨a, List.mem_cons_self, ha⟩
    | tail _ hb =>
      obtain ⟨a', ha', hfa'⟩ := ih hb
      exact ⟨a', List.mem_cons_of_mem a ha', hfa'⟩

-- ---------------------------------------------------------------------------
-- What the packages hold
-- ---------------------------------------------------------------------------

def Package.Holds (c : Char) (pkg : Package) : Prop :=
  c ∈ pkg.name ∨ c ∈ pkg.version ∨ c ∈ pkg.licenseExpression ∨ (∃ s ∈ pkg.classifiers, c ∈ s) ∨ c ∈ pkg.licenseField ∨
    c ∈ pkg.homePage ∨ (∃ s ∈ pkg.projectUrls, c ∈ s) ∨ ∃ file ∈ pkg.licenseFiles.items, c ∈ file.1 ∨ c ∈ file.2

variable {u : Unicode} {hostname : Str → Result (Option Str)} {pkg : Package}

theorem mem_declaredLicense (h : c ∈ declaredLicense pkg) :
    pkg.Holds c ∨ c ∈ ", ".toList ∨ c ∈ "See bundled license".toList := by
  unfold declaredLicense at h
  dsimp only at h
  split at h
  · simp [Package.Holds, h]
  · split at h
    · rcases mem_join h with hsep | ⟨s, hs, hc⟩
      · exact .inr (.inl hsep)
      · obtain ⟨line, hline, rfl⟩ := List.mem_map.mp hs
        refine .inl (.inr (.inr (.inr (.inl ⟨line, hline, ?_⟩))))
        have hlast := mem_strip hc
        cases hsplit : (split "::".toList line).getLast? with
        | none =>
          rw [hsplit] at hlast
          cases hlast
        | some part =>
          rw [hsplit, Option.getD_some] at hlast
          exact (mem_splitFrom (List.mem_of_getLast? hsplit) hlast).resolve_left (by simp)
    · split at h
      · simp [Package.Holds, h]
      · exact .inr (.inr h)

theorem copyrightLine_ok {files : Dict Str Str} (h : copyrightLine u files ≠ []) :
    ∃ file ∈ files.items, ∃ raw ∈ splitlines file.2, copyrightOf u raw = some (copyrightLine u files) := by
  unfold copyrightLine at h ⊢
  dsimp only at h ⊢
  generalize hordered :
    sortedBy (fun file : Str × Str => if "NOTICE".toList <:+: u.upper file.1 then 0 else 1) files.items = ordered at h ⊢
  cases hfound : (ordered.flatMap fun file => splitlines file.2).findSome? (copyrightOf u) with
  | none => simp [hfound] at h
  | some found =>
    obtain ⟨raw, hraw, hline⟩ := List.exists_of_findSome?_eq_some hfound
    obtain ⟨file, hfile, hraw⟩ := List.mem_flatMap.mp hraw
    exact ⟨file, (hordered ▸ sortedBy_perm _ _).mem_iff.mp hfile, raw, hraw, hline⟩

theorem copyrightOf_eq (h : copyrightOf u raw = some line) :
    line = dropEnd (· = ',') (strip raw) ∧ "copyright".toList <+: u.lower line := by
  unfold copyrightOf at h
  dsimp only at h
  split at h
  · cases h
  · rename_i hstarts
    split at h
    · cases h
      exact ⟨rfl, Classical.not_not.mp fun hn => hstarts (.inl hn)⟩
    · cases h

theorem mem_copyrightLine {files : Dict Str Str} (h : c ∈ copyrightLine u files) : ∃ file ∈ files.items, c ∈ file.2 := by
  obtain ⟨file, hfile, raw, hraw, hline⟩ := copyrightLine_ok (List.ne_nil_of_mem h)
  rw [(copyrightOf_eq hline).1] at h
  exact ⟨file, hfile, (mem_splitlinesFrom hraw (mem_strip (mem_dropEnd h))).resolve_left (by simp)⟩

theorem get?_update_mem {entries : List (Str × Str)} {d : Dict Str Str} (h : (d.update entries).get? k = some v) :
    (k, v) ∈ entries ∨ d.get? k = some v := by
  induction entries generalizing d with
  | nil => exact .inr h
  | cons e entries ih =>
    rcases ih h with hrest | hset
    · exact .inl (List.mem_cons_of_mem e hrest)
    · rw [Dict.get?_set] at hset
      split at hset
      · rename_i hk
        exact .inl (by simp [hk, ← Option.some.inj hset])
      · exact .inr hset

theorem mem_labelledUrls (h : (k, url) ∈ (labelledUrls u pkg).items) (hc : c ∈ url) : ∃ s ∈ pkg.projectUrls, c ∈ s := by
  rcases get?_update_mem (Dict.get?_eq_some.mpr h) with hmem | hnone
  · obtain ⟨entry, hentry, heq⟩ := List.mem_map.mp hmem
    cases heq
    exact ⟨entry, hentry, mem_partition (mem_strip hc)⟩
  · cases hnone

theorem mem_repoUrl {urls : List Str} (h : repoUrl u hostname urls = .ok (some url)) (hc : c ∈ url) :
    (∃ s ∈ urls, c ∈ s) ∨ c = '\n' := by
  induction urls with
  | nil => cases h
  | cons s urls ih =>
    obtain ⟨host, -, hrest⟩ := bind_ok.mp h
    split at hrest
    · cases hrest
      exact (mem_dropRepoTail hc).imp_left fun hs => ⟨s, by simp, hs⟩
    · exact (ih hrest).imp_left fun ⟨s', hs', hc⟩ => ⟨s', List.mem_cons_of_mem s hs', hc⟩

theorem mem_bestUrl (h : bestUrl u hostname pkg = .ok url) (hc : c ∈ url) : pkg.Holds c ∨ c = '\n' := by
  have hvalues {url : Str} (hurl : url ∈ (labelledUrls u pkg).items.map Prod.snd) (hc : c ∈ url) : pkg.Holds c := by
    obtain ⟨⟨k, _⟩, hitem, rfl⟩ := List.mem_map.mp hurl
    have hproject := mem_labelledUrls hitem hc
    simp only [Package.Holds, hproject, true_or, or_true]
  unfold bestUrl at h
  dsimp only at h
  split at h
  · cases h
    simp [Package.Holds, hc]
  · split at h
    · rename_i found hfound
      cases h
      obtain ⟨label, -, hget⟩ := List.exists_of_findSome?_eq_some hfound
      exact .inl (hvalues (List.mem_map.mpr ⟨_, Dict.get?_eq_some.mp hget, rfl⟩) hc)
    · obtain ⟨repo, hrepo, hurl⟩ := bind_ok.mp h
      cases hurl
      cases repo with
      | some url =>
        rcases mem_repoUrl hrepo hc with ⟨s, hs, hcs⟩ | hline
        · exact .inl (hvalues hs hcs)
        · exact .inr hline
      | none =>
        cases hhead : ((labelledUrls u pkg).items.map Prod.snd).head? with
        | none => simp [hhead] at hc
        | some url =>
          simp only [hhead, Option.getD_none, Option.getD_some] at hc
          exact .inl (hvalues (List.mem_of_head? hhead) hc)

-- ---------------------------------------------------------------------------
-- Carriage returns
-- ---------------------------------------------------------------------------

theorem cr_not_mem_canonicalDir (h : '\r' ∉ name) : '\r' ∉ canonicalDir u name := by
  intro hmem
  rcases Unicode.mem_lowerFrom hmem (by decide) with hlower | ⟨c, hc, hascii, heq⟩
  · exact absurd hlower (by decide)
  · have honly : ∀ n < 128, (Char.ofNat n).toLower = '\r' → Char.ofNat n = '\r' := by decide
    have hcr : c = '\r' := by simpa using honly c.toNat hascii (by simpa using heq)
    exact (mem_collapse (hcr ▸ hc)).elim h (by decide)

def IsReturn (c : Char) : Prop := c = '\r' ∨ c = '\n'

theorem return_not_mem_natText2 (hc : IsReturn c) (n : Nat) : c ∉ natText2 n := by
  intro h
  rcases List.mem_append.mp h with hpad | hdigits
  · obtain rfl := List.eq_of_mem_replicate hpad
    exact absurd hc (by simp [IsReturn])
  · have hdigit := Nat.isDigit_of_mem_toDigits (by decide) (by decide) hdigits
    rcases hc with rfl | rfl <;> cases hdigit

theorem cr_not_mem_artifactPath (h : ¬pkg.Holds '\r') (hfile : file ∈ pkg.licenseFiles.keys) :
    '\r' ∉ artifactPath u pkg file := by
  obtain ⟨item, hitem, rfl⟩ := List.mem_map.mp hfile
  have hname : '\r' ∉ pkg.name := fun hc => h (.inl hc)
  have hkey : '\r' ∉ item.1 := fun hc => h (by simp only [Package.Holds]; exact .inr (.inr (.inr (.inr (.inr (.inr (.inr
    ⟨item, hitem, .inl hc⟩)))))))
  have hdir : '\r' ∉ canonicalDir u pkg.name := cr_not_mem_canonicalDir hname
  have hlicenses : '\r' ∉ licensesDir := by decide
  simp only [artifactPath, List.mem_append, List.mem_cons, not_or]
  exact ⟨hlicenses, by decide, hdir, by decide, hkey⟩

theorem Package.not_holds_fields (h : ¬pkg.Holds '\r') :
    '\r' ∉ pkg.name ∧ '\r' ∉ pkg.version ∧ ∀ file ∈ pkg.licenseFiles.items, '\r' ∉ file.2 := by
  simp only [Package.Holds, not_or, not_exists, not_and] at h
  exact ⟨h.1, h.2.1, fun file hfile => (h.2.2.2.2.2.2.2 file hfile).2⟩

theorem cr_not_mem_lines {e : Entry} (hurl : bestUrl u hostname e.package = .ok e.url)
    (h : ¬e.package.Holds '\r') (hline : line ∈ e.lines u family) : '\r' ∉ line := by
  obtain ⟨hname, hversion, htexts⟩ := Package.not_holds_fields h
  have hdeclared : '\r' ∉ declaredLicense e.package := fun hc =>
    (mem_declaredLicense hc).elim h (by decide)
  have hcopyright : '\r' ∉ copyrightLine u e.package.licenseFiles := fun hc => by
    obtain ⟨file, hfile, hcr⟩ := mem_copyrightLine hc
    exact htexts file hfile hcr
  have hlink : '\r' ∉ e.url := fun hc => (mem_bestUrl hurl hc).elim h (by decide)
  have hartifacts : '\r' ∉ join ", ".toList (e.cited u) := fun hc => by
    rcases mem_join hc with hsep | ⟨path, hpath, hcr⟩
    · exact absurd hsep (by decide)
    · obtain ⟨file, hfile, rfl⟩ := List.mem_map.mp hpath
      exact cr_not_mem_artifactPath h ((sortedBy_perm _ _).mem_iff.mp hfile) hcr
  have hhead :
      '\r' ∉ "  ".toList ++ natText2 e.number ++ ". ".toList ++ e.package.name ++ ' ' :: e.package.version := by
    simp [hname, hversion, return_not_mem_natText2 (c := '\r') (.inl rfl)]
  have hindent {s : Str} (hs : '\r' ∉ s) : '\r' ∉ indent ++ s := by
    simp [indent, hs]
  have hoptional {s : Str} (hs : '\r' ∉ s) (hmem : line ∈ if s = [] then [] else [indent ++ s]) : '\r' ∉ line := by
    split at hmem
    · cases hmem
    · obtain rfl := List.mem_singleton.mp hmem
      exact hindent hs
  simp only [Entry.lines, List.mem_append] at hline
  rcases hline with ((hline | hline) | hline) | hline
  · obtain rfl := List.mem_singleton.mp hline
    split
    · exact hhead
    · simp only [List.mem_append, not_or] at hhead ⊢
      exact ⟨⟨⟨hhead, by decide⟩, hdeclared⟩, by decide⟩
  · exact hoptional hcopyright hline
  · exact hoptional hlink hline
  · exact hoptional hartifacts hline

theorem mem_entries (h : entries u hostname pkgs = .ok es) (he : e ∈ es) :
    e.package ∈ pkgs ∧ bestUrl u hostname e.package = .ok e.url := by
  obtain ⟨numbered, hnumbered, hentry⟩ := mem_mapM h he
  obtain ⟨url, hurl, hpure⟩ := bind_ok.mp hentry
  cases hpure
  have hmem : numbered.1 ∈ sortedByName u pkgs := (List.mem_zipIdx hnumbered).2.2 ▸ List.getElem_mem _
  exact ⟨(sortedBy_perm _ _).mem_iff.mp hmem, hurl⟩

theorem mem_sections (h : sections u hostname packages = .ok secs) (hsec : sec ∈ secs) :
    sec.family ∈ familyNames ∧ ∀ e ∈ sec.entries, e.package ∈ packages ∧ bestUrl u hostname e.package = .ok e.url := by
  obtain ⟨parts, hparts, hpure⟩ := bind_ok.mp h
  cases hpure
  obtain ⟨part, hpart, hmem⟩ := List.mem_flatten.mp hsec
  obtain ⟨_, hfamily, hsections⟩ := mem_mapM hparts hpart
  unfold familySections at hsections
  split at hsections
  · cases hsections
    cases hmem
  · rename_i pkg pkgs hgroup
    obtain ⟨es, hes, hpure⟩ := bind_ok.mp hsections
    cases hpure
    obtain rfl := List.mem_singleton.mp hmem
    refine ⟨hfamily, fun e he => ?_⟩
    obtain ⟨hpackage, hurl⟩ := mem_entries hes he
    rw [← hgroup, get_groups] at hpackage
    exact ⟨(List.mem_filter.mp hpackage).1, hurl⟩

-- A literal is rewritten to the list of its characters before the simplifier evaluates it.
theorem return_not_mem_preamble (hc : IsReturn c) (h : c ∉ cloud) : ∀ line ∈ preamble cloud, c ∉ line := by
  simp only [preamble, List.map_cons, List.map_nil, List.cons_append, List.nil_append]
  repeat rw [String.toList_ofList]
  rcases hc with rfl | rfl <;> simp [h, rule, join, List.intercalate]

theorem return_not_mem_uvLines (hc : IsReturn c) : ∀ line ∈ uvLines, c ∉ line := by
  simp only [uvLines, List.map_cons, List.map_nil]
  repeat rw [String.toList_ofList]
  rcases hc with rfl | rfl <;> simp

theorem cr_not_mem_noticeText (h : ∀ pkg ∈ packages, ¬pkg.Holds '\r') (cloud : Cloud)
    (hsecs : sections u hostname packages = .ok secs) : '\r' ∉ noticeText u cloud.text secs hasUv := by
  have hcloud : '\r' ∉ cloud.text := by cases cloud <;> decide
  have hfamilies : ∀ family ∈ familyNames, '\r' ∉ family := by decide
  have hsections : ∀ line ∈ secs.flatMap (Section.lines u), '\r' ∉ line := fun line hline => by
    obtain ⟨sec, hsec, hline⟩ := List.mem_flatMap.mp hline
    obtain ⟨hfamily, hentries⟩ := mem_sections hsecs hsec
    rw [Section.lines, List.mem_append, List.mem_cons] at hline
    rcases hline with (rfl | hline) | hblank
    · exact hfamilies _ hfamily
    · obtain ⟨e, he, hline⟩ := List.mem_flatMap.mp hline
      obtain ⟨hpackage, hurl⟩ := hentries e he
      exact cr_not_mem_lines hurl (h _ hpackage) hline
    · obtain rfl := List.mem_singleton.mp hblank
      simp
  intro hmem
  rcases List.mem_append.mp hmem with hbody | hend
  · rcases mem_join (mem_dropEnd hbody) with hsep | ⟨line, hline, hc⟩
    · exact absurd hsep (by decide)
    · rcases List.mem_append.mp hline with hline | hline
      · rcases List.mem_append.mp hline with hline | hline
        · exact return_not_mem_preamble (.inl rfl) hcloud line hline hc
        · exact hsections line hline hc
      · split at hline
        · exact return_not_mem_uvLines (.inl rfl) line hline hc
        · cases hline
  · exact absurd hend (by decide)

theorem cr_not_mem_buildOutputs (h : ∀ pkg ∈ packages, ¬pkg.Holds '\r') (cloud : Cloud)
    (hbuilt : buildOutputs u hostname cloud.text packages hasUv = .ok outputs) (hget : outputs.get? rel = some text) :
    '\r' ∉ text := by
  obtain ⟨notice, hnotice, hpure⟩ := bind_ok.mp hbuilt
  obtain ⟨secs, hsecs, hpure'⟩ := bind_ok.mp hnotice
  cases hpure'
  cases hpure
  rcases get?_update_mem hget with hartifact | hset
  · obtain ⟨pkg, hpkg, hartifact⟩ := List.mem_flatMap.mp hartifact
    obtain ⟨file, hfile, heq⟩ := List.mem_map.mp hartifact
    cases heq
    exact (Package.not_holds_fields (h pkg hpkg)).2.2 file hfile
  · rw [Dict.get?_set] at hset
    split at hset
    · cases hset
      exact cr_not_mem_noticeText h cloud hsecs
    · cases hset

end LlmWorker.Licenses
