import LlmWorker.Lib.Dict
import LlmWorker.Python.Str

/-!
# Packages and their licenses

`gen_licenses.py`: what the generator reads off one package record of the
image: its directory name, its declared license and the family of it, its URL
and its copyright line.
-/

namespace LlmWorker.Licenses

open Python

/-- A record as the extractor prints it. -/
structure Package where
  name : Str
  version : Str
  licenseExpression : Str
  classifiers : List Str
  licenseField : Str
  homePage : Str
  projectUrls : List Str
  licenseFiles : Dict Str Str
  deriving DecidableEq

def otherLicenses : Str := "Other licenses".toList

/-- The families with their tokens; the first that matches counts. -/
def licenseFamilies : List (Str × List Str) :=
  [("Apache License, Version 2.0".toList, ["apache".toList]),
    ("Mozilla Public License 2.0".toList, ["mpl".toList, "mozilla".toList]),
    ("Python Software Foundation License".toList, ["psf".toList, "python software foundation".toList]),
    ("BSD License".toList, ["bsd".toList]),
    ("MIT License".toList, ["mit".toList])]

def isSeparator (c : Char) : Bool := c = '-' || c = '_' || c = '.'

/-- `re.sub(r"[-_.]+", "-", name)` -/
def collapse (inRun : Bool) : Str → Str
  | [] => []
  | c :: s =>
    if isSeparator c then (if inRun then collapse true s else '-' :: collapse true s)
    else c :: collapse false s

/-- `url.partition(",")`, without the separator. -/
def partition (sep : Char) (s : Str) : Str × Str := (s.takeWhile (· ≠ sep), (s.dropWhile (· ≠ sep)).drop 1)

def repoTails : List Str := ["/blob/".toList, "/releases/".toList, "/tree/".toList]

/-- `re.sub(r"/(blob|releases|tree)/.*$", "", url)`: the tail ends with the
text, or before a last line feed, and holds no other. -/
def dropRepoTail : Str → Str
  | [] => []
  | c :: s =>
    if repoTails.any (·.isPrefixOf (c :: s)) && !((c :: s).dropLast).contains '\n' then
      if s.getLast? = some '\n' then ['\n'] else []
    else c :: dropRepoTail s

def copyrightNoise : List Str :=
  ["[yyyy]", "[name of copyright owner]", "that is included in or attached", "copyright notice",
    "copyright, patent", "copyright ownership"].map String.toList

section

variable (u : Unicode) (hostname : Str → Result (Option Str))

def canonicalDir (name : Str) : Str := u.lower (collapse false name)

def declaredLicense (pkg : Package) : Str :=
  if pkg.licenseExpression ≠ [] then pkg.licenseExpression
  else
    let classifiers := pkg.classifiers.map fun c => strip ((split "::".toList c).getLast?.getD [])
    if classifiers ≠ [] then join ", ".toList classifiers
    else if pkg.licenseField ≠ [] then pkg.licenseField
    else "See bundled license".toList

def matchesFamily (tokens : List Str) (declared : Str) : Bool :=
  tokens.any fun t => u.searchWord t (u.lower declared)

def licenseFamily (declared : Str) : Str :=
  match licenseFamilies.find? fun family => matchesFamily u family.2 declared with
  | some family => family.1
  | none => otherLicenses

/-- The first URL whose parsed host is a repository host; `urlparse` may raise. -/
def repoUrl : List Str → Result (Option Str)
  | [] => .ok none
  | url :: urls => do
    let host ← hostname url
    if u.lower (host.getD []) ∈ ["github.com".toList, "gitlab.com".toList] then
      .ok (some (dropRepoTail url))
    else repoUrl urls

def urlLabels : List Str := ["homepage", "home", "repository", "source", "source code", "code"].map String.toList

def labelledUrls (pkg : Package) : Dict Str Str :=
  Dict.empty.update (pkg.projectUrls.map fun entry =>
    let (label, url) := partition ',' entry
    (u.lower (strip label), strip url))

/-- `urlparse(url).hostname` is what `hostname` gives. -/
def bestUrl (pkg : Package) : Result Str :=
  if pkg.homePage ≠ [] then .ok pkg.homePage
  else
    let urls := labelledUrls u pkg
    match urlLabels.findSome? urls.get? with
    | some url => .ok url
    | none => do
      let values := urls.items.map Prod.snd
      let repo ← repoUrl u hostname values
      .ok (repo.getD (values.head?.getD []))

def copyrightOf (raw : Str) : Option Str :=
  let line := dropEnd (· = ',') (strip raw)
  let low := u.lower line
  if ¬"copyright".toList <+: low ∨ copyrightNoise.any (fun n => n <:+: low) then none
  else if u.searchYear line ∨ "(c)".toList <:+: low ∨ '©' ∈ line then some line
  else none

def copyrightLine (files : Dict Str Str) : Str :=
  let ordered := sortedBy (fun file => if "NOTICE".toList <:+: u.upper file.1 then 0 else 1) files.items
  ((ordered.flatMap fun file => splitlines file.2).findSome? (copyrightOf u)).getD []

end

-- ---------------------------------------------------------------------------
-- Directory names
-- ---------------------------------------------------------------------------

variable {u : Unicode}

theorem not_special_of_isLower (h : d.isLower = true) : isSeparator d = false ∧ d ≠ '/' := by
  have hne : ∀ c ∈ ['-', '_', '.', '/'], d ≠ c := by
    rintro c hc rfl
    simp only [List.mem_cons, List.not_mem_nil, or_false] at hc
    rcases hc with rfl | rfl | rfl | rfl <;> exact absurd h (by decide)
  simp only [isSeparator, hne '-' (by simp), hne '_' (by simp), hne '.' (by simp), decide_false, Bool.or_self]
  exact ⟨trivial, hne '/' (by simp)⟩

/-- Lower case keeps the characters with a meaning in directory names, and adds none. -/
theorem special_toLower (h : c.toNat < 128) :
    isSeparator c.toLower = isSeparator c ∧ (isSeparator c = true → c.toLower = c) ∧ (c.toLower = '/' → c = '/') := by
  have hall : ∀ n < 128, isSeparator (Char.ofNat n).toLower = isSeparator (Char.ofNat n) ∧
      (isSeparator (Char.ofNat n) = true → (Char.ofNat n).toLower = Char.ofNat n) ∧
      ((Char.ofNat n).toLower = '/' → Char.ofNat n = '/') := by decide
  simpa using hall c.toNat h

theorem ascii_of_isSeparator (h : isSeparator c = true) : c.toNat < 128 := by
  simp only [isSeparator, Bool.or_eq_true, decide_eq_true_eq] at h
  rcases h with (rfl | rfl) | rfl <;> decide

theorem lowerChar_separator (h : isSeparator c = true) : u.lowerChar c = [c] := by
  have hascii := ascii_of_isSeparator h
  rw [u.lowerChar_ascii c hascii, (special_toLower hascii).2.1 h]

theorem lowerChar_not_separator (h : isSeparator c = false) : ∀ d ∈ u.lowerChar c, isSeparator d = false := by
  intro d hd
  by_cases hc : c.toNat < 128
  · rw [u.lowerChar_ascii c hc, List.mem_singleton] at hd
    rw [hd, (special_toLower hc).1, h]
  · by_cases hascii : d.toNat < 128
    · exact (not_special_of_isLower (u.lowerChar_other c (Nat.le_of_not_lt hc) d hd hascii)).1
    · exact Bool.eq_false_iff.mpr fun hsep => hascii (ascii_of_isSeparator hsep)

theorem collapse_append (h : ∀ d ∈ p, isSeparator d = false) (hp : p ≠ []) (r : Bool) (s : Str) :
    collapse r (p ++ s) = p ++ collapse false s := by
  induction p generalizing r with
  | nil => exact absurd rfl hp
  | cons d p ih =>
    rw [List.cons_append, collapse, h d (by simp), if_neg Bool.false_ne_true]
    by_cases hnil : p = []
    · simp [hnil]
    · rw [ih (fun e he => h e (List.mem_cons_of_mem _ he)) hnil, List.cons_append]

theorem collapse_lower (r : Bool) (s : Str) :
    (collapse r s).flatMap u.lowerChar = collapse r (s.flatMap u.lowerChar) := by
  induction s generalizing r with
  | nil => rfl
  | cons c s ih =>
    rw [List.flatMap_cons]
    cases hsep : isSeparator c with
    | true =>
      have hdash : u.lowerChar '-' = ['-'] := lowerChar_separator (by decide)
      rw [lowerChar_separator hsep, List.singleton_append, collapse, collapse, hsep, if_pos rfl, if_pos rfl]
      cases r with
      | true => exact ih true
      | false => simp [hdash, ih]
    | false =>
      rw [collapse_append (lowerChar_not_separator hsep) (u.lowerChar_ne_nil c), collapse, hsep,
        if_neg Bool.false_ne_true, List.flatMap_cons, ih]

theorem mem_collapse (h : c ∈ collapse r s) : c ∈ s ∨ c = '-' := by
  induction s generalizing r with
  | nil => exact .inl h
  | cons d s ih =>
    rw [collapse] at h
    have hrest {r : Bool} (h : c ∈ collapse r s) : c ∈ d :: s ∨ c = '-' := (ih h).imp_left (List.mem_cons_of_mem _)
    split at h
    · split at h
      · exact hrest h
      · rcases List.mem_cons.mp h with hdash | h
        · exact .inr hdash
        · exact hrest h
    · rcases List.mem_cons.mp h with rfl | h
      · exact .inl (by simp)
      · exact hrest h

/-- Names with one lower case have one directory, unless a capital sigma is
among their letters. -/
theorem canonicalDir_of_lower (hm : 'Σ' ∉ m) (hn : 'Σ' ∉ n) (h : u.lower m = u.lower n) :
    canonicalDir u m = canonicalDir u n := by
  have hsigma {s : Str} (hs : 'Σ' ∉ s) : 'Σ' ∉ collapse false s := fun hmem =>
    (mem_collapse hmem).elim hs (by decide)
  have heq {s : Str} (hs : 'Σ' ∉ s) : canonicalDir u s = collapse false (u.lower s) := by
    rw [canonicalDir, Unicode.lower_of_no_sigma (hsigma hs), collapse_lower, Unicode.lower_of_no_sigma hs]
  rw [heq hm, heq hn, h]

theorem slash_not_mem_canonicalDir (h : '/' ∉ name) : '/' ∉ canonicalDir u name := by
  intro hmem
  rcases Unicode.mem_lowerFrom hmem (by decide) with hlower | ⟨c, hc, hascii, hslash⟩
  · exact absurd hlower (by decide)
  · obtain rfl := (special_toLower hascii).2.2 hslash
    exact (mem_collapse hc).elim h (by decide)

-- ---------------------------------------------------------------------------
-- Conjunctions
-- ---------------------------------------------------------------------------

/-- `" AND ".join(licenses)` -/
def conjunction (licenses : List Str) : Str := join " AND ".toList licenses

theorem conjunction_cons (L : Str) {Ls : List Str} (h : Ls ≠ []) :
    conjunction (L :: Ls) = L ++ (" AND ".toList ++ conjunction Ls) := by
  cases Ls with
  | nil => exact absurd rfl h
  | cons M Ls => simp [conjunction, join, List.intercalate]

theorem lower_and (u : Unicode) (a b : Str) :
    u.lower (a ++ (" AND ".toList ++ b)) = u.lower a ++ (" and ".toList ++ u.lower b) := by
  have hspace : ' '.toNat < 128 := by decide
  have hsep : " AND ".toList ++ b = ' ' :: ("AND".toList ++ ' ' :: b) := rfl
  have hand : u.lower ("AND".toList ++ ' ' :: b) = "and".toList ++ ' ' :: u.lower b := by
    rw [Unicode.lower, Unicode.lowerFrom_blank (Unicode.blank_space u) (by decide), u.lowerChar_ascii _ hspace]
    have hword : u.lowerFrom [] "AND".toList = "and".toList := by
      show u.lowerFrom [] ['A', 'N', 'D'] = _
      rw [Unicode.lower_ascii_cons (by decide), Unicode.lower_ascii_cons (by decide),
        Unicode.lower_ascii_cons (by decide)]
      rfl
    rw [hword]
    rfl
  rw [hsep, Unicode.lower, Unicode.lowerFrom_blank (Unicode.blank_space u) (by decide), u.lowerChar_ascii _ hspace,
    hand]
  simp [Unicode.lower]

def familyTokens : List Str := licenseFamilies.flatMap Prod.snd

theorem token_clash : ∀ t ∈ familyTokens, 0 < t.length ∧ Unicode.Clash t " and ".toList := by decide

theorem wordAt_and (u : Unicode) :
    u.wordAt " and ".toList 0 = false ∧ u.wordAt " and ".toList (" and ".toList.length - 1) = false := by
  have hspace : u.isWord ' ' = false := by
    rw [Unicode.isWord, u.isAlnum_ascii _ (by decide)]
    decide
  exact ⟨hspace, hspace⟩

theorem searchWord_conjunction (ht : t ∈ familyTokens) (Ls : List Str) :
    u.searchWord t (u.lower (conjunction Ls)) = Ls.any fun L => u.searchWord t (u.lower L) := by
  obtain ⟨hlength, hclash⟩ := token_clash t ht
  induction Ls with
  | nil =>
    rw [List.any_nil, Bool.eq_false_iff, Ne, Unicode.searchWord_iff]
    rintro ⟨i, -, hpre, -⟩
    have hle := hpre.length_le
    rw [show u.lower (conjunction []) = [] from rfl, List.drop_nil, List.length_nil] at hle
    omega
  | cons L Ls ih =>
    by_cases hnil : Ls = []
    · subst hnil
      simp [conjunction, join]
    · obtain ⟨hfirst, hlast⟩ := wordAt_and u
      rw [conjunction_cons L hnil, lower_and, Unicode.searchWord_append hfirst hlast (by decide) hclash hlength, ih,
        List.any_cons]

theorem licenseFamily_eq_other :
    licenseFamily u declared = otherLicenses ↔ ∀ t ∈ familyTokens, u.searchWord t (u.lower declared) = false := by
  have hne : ∀ family ∈ licenseFamilies, family.1 ≠ otherLicenses := by decide
  have hnone : (licenseFamilies.find? fun family => matchesFamily u family.2 declared) = none ↔
      ∀ t ∈ familyTokens, u.searchWord t (u.lower declared) = false := by
    simp only [List.find?_eq_none, matchesFamily, List.any_eq_true, not_exists, not_and, Bool.not_eq_true, familyTokens,
      List.mem_flatMap, forall_exists_index, and_imp]
    exact ⟨fun h t family hfamily ht => h family hfamily t ht, fun h family hfamily t ht => h t family hfamily ht⟩
  rw [← hnone, licenseFamily]
  cases hfind : licenseFamilies.find? fun family => matchesFamily u family.2 declared with
  | none => simp
  | some family => simpa using hne family (List.mem_of_find?_eq_some hfind)

/-- One recognised license is enough for a conjunction to be of its family. -/
theorem licenseFamily_conjunction (Ls : List Str) :
    licenseFamily u (conjunction Ls) = otherLicenses ↔ ∀ L ∈ Ls, licenseFamily u L = otherLicenses := by
  simp only [licenseFamily_eq_other]
  constructor
  · intro h L hL t ht
    have hnone := h t ht
    rw [searchWord_conjunction ht, List.any_eq_false] at hnone
    exact Bool.eq_false_iff.mpr (hnone L hL)
  · intro h t ht
    rw [searchWord_conjunction ht, List.any_eq_false]
    exact fun L hL => Bool.eq_false_iff.mp (h L hL t ht)

end LlmWorker.Licenses
