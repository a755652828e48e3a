import LlmWorker.Python.Json
import Mathlib.Data.Char
import Mathlib.Data.List.Lex
import Mathlib.Data.List.Sort

/-!
# Python strings as code points

The methods of `str` and the searches of `re` that the license generator uses.
What they take from the Unicode character database is a parameter, with what
the database says about ASCII.
-/

namespace Python

abbrev Str := List Char

instance : LawfulBEq Str := inferInstance

/-- What `str.lower`, `str.upper` and `re` look up of a code point. -/
structure Unicode where
  lowerChar : Char → Str
  upperChar : Char → Str
  isCased : Char → Bool
  isCaseIgnorable : Char → Bool
  isAlnum : Char → Bool
  isDecimal : Char → Bool
  lowerChar_ne_nil : ∀ c, lowerChar c ≠ []
  lowerChar_ascii : ∀ c, c.toNat < 128 → lowerChar c = [c.toLower]
  /-- The Kelvin sign and the dotted capital I become a letter. -/
  lowerChar_other : ∀ c, 128 ≤ c.toNat → ∀ d ∈ lowerChar c, d.toNat < 128 → d.isLower
  isCased_ascii : ∀ c, c.toNat < 128 → isCased c = c.isAlpha
  isCaseIgnorable_ascii : ∀ c, c.toNat < 128 → isCaseIgnorable c = decide (c ∈ ['\'', '.', ':', '^', '\x60'])
  isAlnum_ascii : ∀ c, c.toNat < 128 → isAlnum c = c.isAlphanum

-- ---------------------------------------------------------------------------
-- Methods of str
-- ---------------------------------------------------------------------------

namespace Unicode

variable (u : Unicode)

/-- The first code point that is not case-ignorable is cased. -/
def nextCased (s : Str) : Bool := (s.dropWhile u.isCaseIgnorable).head?.any u.isCased

/-- `str.lower`; `before` is what precedes the text, in reverse. Only the
capital sigma looks at its neighbours. -/
def lowerFrom (before : Str) : Str → Str
  | [] => []
  | c :: s =>
    (if c = 'Σ' then [if u.nextCased before && !u.nextCased s then 'ς' else 'σ'] else u.lowerChar c) ++
      lowerFrom (c :: before) s

def lower (s : Str) : Str := u.lowerFrom [] s

def upper (s : Str) : Str := s.flatMap u.upperChar

variable {u}

/-- A code point that a sigma does not look past, and that is no letter to it. -/
def Blank (u : Unicode) (c : Char) : Prop := u.isCased c = false ∧ u.isCaseIgnorable c = false

theorem blank_space (u : Unicode) : u.Blank ' ' := by
  constructor
  · rw [u.isCased_ascii _ (by decide)]
    decide
  · rw [u.isCaseIgnorable_ascii _ (by decide)]
    decide

theorem nextCased_append (h : u.Blank c) (p q : Str) : u.nextCased (p ++ c :: q) = u.nextCased p := by
  rw [nextCased, nextCased, List.dropWhile_append]
  split
  · rename_i hempty
    have hp : p.dropWhile u.isCaseIgnorable = [] := List.isEmpty_iff.mp hempty
    simp [hp, h.1, h.2]
  · rename_i hempty
    cases hp : p.dropWhile u.isCaseIgnorable with
    | nil => simp [hp] at hempty
    | cons d rest => rfl

theorem lowerFrom_before (h : u.Blank c) (p q s : Str) : u.lowerFrom (p ++ c :: q) s = u.lowerFrom p s := by
  induction s generalizing p with
  | nil => rfl
  | cons d s ih =>
    rw [lowerFrom, lowerFrom, nextCased_append h, ← List.cons_append, ih]

theorem lowerFrom_blank (h : u.Blank c) (hsigma : c ≠ 'Σ') (before s rest : Str) :
    u.lowerFrom before (s ++ c :: rest) = u.lowerFrom before s ++ u.lowerChar c ++ u.lower rest := by
  induction s generalizing before with
  | nil =>
    have hrest : u.lowerFrom (c :: before) rest = u.lower rest := lowerFrom_before h [] before rest
    have hcons : u.lowerFrom before (c :: rest) = u.lowerChar c ++ u.lowerFrom (c :: before) rest := by
      rw [lowerFrom, if_neg hsigma]
    rw [List.nil_append, hcons, hrest]
    rfl
  | cons d s ih =>
    rw [List.cons_append, lowerFrom, ih, lowerFrom, nextCased_append h, List.append_assoc, List.append_assoc,
      List.append_assoc]

theorem lower_ascii_cons (hc : c.toNat < 128) (s : Str) (before : Str) :
    u.lowerFrom before (c :: s) = c.toLower :: u.lowerFrom (c :: before) s := by
  have hsigma : c ≠ 'Σ' := by
    rintro rfl
    exact absurd hc (by decide)
  rw [lowerFrom, if_neg hsigma, u.lowerChar_ascii c hc]
  rfl

theorem lower_of_no_sigma (h : 'Σ' ∉ s) : u.lower s = s.flatMap u.lowerChar := by
  suffices hfrom : ∀ before, u.lowerFrom before s = s.flatMap u.lowerChar from hfrom []
  induction s with
  | nil => exact fun _ => rfl
  | cons c s ih =>
    intro before
    rw [List.mem_cons, not_or] at h
    rw [lowerFrom, if_neg (Ne.symm h.1), ih h.2, List.flatMap_cons]

theorem mem_lowerFrom (h : d ∈ u.lowerFrom before s) (hd : d.toNat < 128) :
    d.isLower = true ∨ ∃ c ∈ s, c.toNat < 128 ∧ c.toLower = d := by
  induction s generalizing before with
  | nil => cases h
  | cons c s ih =>
    rw [lowerFrom] at h
    rcases List.mem_append.mp h with hfirst | hrest
    · by_cases hsigma : c = 'Σ'
      · rw [if_pos hsigma] at hfirst
        obtain rfl : d = _ := by simpa using hfirst
        split at hd <;> exact absurd hd (by decide)
      · rw [if_neg hsigma] at hfirst
        by_cases hc : c.toNat < 128
        · rw [u.lowerChar_ascii c hc, List.mem_singleton] at hfirst
          exact .inr ⟨c, by simp, hc, hfirst.symm⟩
        · exact .inl (u.lowerChar_other c (Nat.le_of_not_lt hc) d hfirst hd)
    · rcases ih hrest with hlower | ⟨c', hc', hascii⟩
      · exact .inl hlower
      · exact .inr ⟨c', List.mem_cons_of_mem _ hc', hascii⟩

end Unicode

/-- `str.isspace` of one code point. -/
def isSpace (c : Char) : Bool :=
  let n := c.toNat
  (0x9 ≤ n && n ≤ 0xd) || (0x1c ≤ n && n ≤ 0x20) || n = 0x85 || n = 0xa0 || n = 0x1680 ||
    (0x2000 ≤ n && n ≤ 0x200a) || n = 0x2028 || n = 0x2029 || n = 0x202f || n = 0x205f || n = 0x3000

/-- A line boundary of `str.splitlines`. -/
def isLineBreak (c : Char) : Bool :=
  let n := c.toNat
  (0xa ≤ n && n ≤ 0xd) || (0x1c ≤ n && n ≤ 0x1e) || n = 0x85 || n = 0x2028 || n = 0x2029

def dropEnd (p : Char → Bool) (s : Str) : Str := (s.reverse.dropWhile p).reverse

def rstrip (s : Str) : Str := dropEnd isSpace s
def strip (s : Str) : Str := rstrip (s.dropWhile isSpace)

theorem dropEnd_append (p : Char → Bool) (a b : Str) :
    dropEnd p (a ++ b) = if dropEnd p b = [] then dropEnd p a else a ++ dropEnd p b := by
  simp only [dropEnd, List.reverse_append, List.reverse_eq_nil_iff, List.dropWhile_append, List.isEmpty_iff]
  split <;> simp

theorem dropEnd_infix_self (p : Char → Bool) (a s b : Str) : dropEnd p s <:+: dropEnd p (a ++ s ++ b) := by
  rw [dropEnd_append, dropEnd_append]
  split
  · split
    · rename_i hnil
      rw [hnil]
      exact List.nil_infix
    · exact (List.suffix_append a _).isInfix
  · refine List.IsInfix.trans ?_ (List.prefix_append (a ++ s) _).isInfix
    have hpre : dropEnd p s <+: s := by
      rw [dropEnd, ← List.reverse_suffix, List.reverse_reverse]
      exact List.dropWhile_suffix p
    exact hpre.isInfix.trans (List.suffix_append a s).isInfix

/-- `line` is the current line, in reverse. -/
def splitlinesFrom (line : Str) : Str → List Str
  | [] => if line = [] then [] else [line.reverse]
  | '\r' :: '\n' :: s => line.reverse :: splitlinesFrom [] s
  | c :: s => if isLineBreak c then line.reverse :: splitlinesFrom [] s else splitlinesFrom (c :: line) s

def splitlines (s : Str) : List Str := splitlinesFrom [] s

theorem splitlinesFrom_line (h : ∀ c ∈ s, isLineBreak c = false) (line rest : Str) :
    splitlinesFrom line (s ++ '\n' :: rest) = (line.reverse ++ s) :: splitlinesFrom [] rest := by
  induction s generalizing line with
  | nil =>
    have hbreak : isLineBreak '\n' = true := by decide
    simp [splitlinesFrom, hbreak]
  | cons c s ih =>
    obtain ⟨hc, hs⟩ := List.forall_mem_cons.mp h
    have hreturn : c ≠ '\r' := by
      rintro rfl
      exact absurd hc (by decide)
    rw [List.cons_append, splitlinesFrom, if_neg (by simp [hc]), ih hs]
    · simp
    · exact fun _ hr => absurd hr hreturn

theorem splitlines_lines {lines : List Str} (h : ∀ line ∈ lines, ∀ c ∈ line, isLineBreak c = false) :
    splitlines (lines.flatMap fun line => line ++ ['\n']) = lines := by
  unfold splitlines
  induction lines with
  | nil => rfl
  | cons line rest ih =>
    obtain ⟨hline, hrest⟩ := List.forall_mem_cons.mp h
    rw [List.flatMap_cons, List.append_assoc, List.singleton_append, splitlinesFrom_line hline, ih hrest]
    rfl

/-- `skip` code points of a separator are still to be passed. -/
def splitFrom (sep : Str) (skip : Nat) (part : Str) : Str → List Str
  | [] => [part.reverse]
  | c :: s =>
    match skip with
    | skip + 1 => splitFrom sep skip part s
    | 0 =>
      if sep <+: c :: s then part.reverse :: splitFrom sep (sep.length - 1) [] s
      else splitFrom sep 0 (c :: part) s

/-- `s.split(sep)` -/
def split (sep s : Str) : List Str := splitFrom sep 0 [] s

/-- `sep.join(parts)` -/
def join (sep : Str) (parts : List Str) : Str := sep.intercalate parts

theorem join_cons_eq (part : Str) (parts : List Str) (sep : Str) : ∃ b, join sep (part :: parts) = part ++ b := by
  cases parts with
  | nil => exact ⟨[], by simp [join]⟩
  | cons next parts => exact ⟨sep ++ join sep (next :: parts), by simp [join, List.intercalate]⟩

theorem join_append_eq (before : List Str) (part : Str) (after : List Str) (sep : Str) :
    ∃ a, join sep (before ++ part :: after) = a ++ join sep (part :: after) := by
  induction before with
  | nil => exact ⟨[], rfl⟩
  | cons s before ih =>
    obtain ⟨a, ha⟩ := ih
    refine ⟨s ++ (sep ++ a), ?_⟩
    cases before with
    | nil => simpa [join, List.intercalate, List.append_assoc] using ha
    | cons t before => simpa [join, List.intercalate, List.append_assoc] using ha

theorem infix_join (h : part ∈ parts) (sep : Str) : ∃ a b, join sep parts = a ++ part ++ b := by
  obtain ⟨before, after, rfl⟩ := List.append_of_mem h
  obtain ⟨a, ha⟩ := join_append_eq before part after sep
  obtain ⟨b, hb⟩ := join_cons_eq part after sep
  exact ⟨a, b, by rw [ha, hb, List.append_assoc]⟩

-- A separator whose first code point comes back in it nowhere cannot overlap itself.

theorem splitFrom_last (h : ¬sep <:+: part) (before : Str) : splitFrom sep 0 before part = [before.reverse ++ part] := by
  induction part generalizing before with
  | nil => simp [splitFrom]
  | cons c part ih =>
    have hnot : ¬sep <+: c :: part := fun hpre => h hpre.isInfix
    rw [splitFrom, if_neg hnot, ih fun hin => h (hin.trans (List.suffix_cons c part).isInfix)]
    simp

theorem splitFrom_skip (skip p : Str) : splitFrom sep skip.length part (skip ++ p) = splitFrom sep 0 part p := by
  induction skip with
  | nil => rfl
  | cons c skip ih => exact ih

theorem not_prefix_append {s part rest : Str} (hc : c ∉ s) (hpart : part ≠ []) (h : ¬c :: s <:+: part) :
    ¬c :: s <+: part ++ (c :: s ++ rest) := by
  intro hpre
  by_cases hlen : (c :: s).length ≤ part.length
  · exact h (List.prefix_of_prefix_length_le hpre (List.prefix_append _ _) hlen).isInfix
  · -- the separator reaches past the part, so its first code point is met again
    obtain ⟨k, hk⟩ : ∃ k, part.length = k + 1 := Nat.exists_eq_succ_of_ne_zero (by simpa using hpart)
    have hlt : part.length < (c :: s).length := by omega
    have hat := List.prefix_iff_getElem?.mp hpre part.length hlt
    rw [List.getElem?_append_right (Nat.le_refl _), Nat.sub_self] at hat
    refine hc (List.mem_of_getElem? (i := k) ?_)
    simp only [hk, List.getElem_cons_succ] at hat
    rw [List.getElem?_eq_getElem (by simp at hlt; omega)]
    simpa using hat.symm

theorem splitFrom_append {s part : Str} (hc : c ∉ s) (h : ¬c :: s <:+: part) (before rest : Str) :
    splitFrom (c :: s) 0 before (part ++ (c :: s ++ rest)) = (before.reverse ++ part) :: split (c :: s) rest := by
  induction part generalizing before with
  | nil =>
    have hpre : c :: s <+: c :: (s ++ rest) := List.prefix_append (c :: s) rest
    rw [List.nil_append, List.cons_append, splitFrom, if_pos hpre, List.length_cons, Nat.add_sub_cancel, splitFrom_skip]
    simp [split]
  | cons d part ih =>
    have hnot := @not_prefix_append c s (d :: part) rest hc (List.cons_ne_nil d part) h
    rw [List.cons_append] at hnot ⊢
    rw [splitFrom, if_neg hnot, ih fun hin => h (hin.trans (List.suffix_cons d part).isInfix)]
    simp

theorem split_join {s : Str} {parts : List Str} (hc : c ∉ s) (hne : parts ≠ []) (h : ∀ part ∈ parts, ¬c :: s <:+: part) :
    split (c :: s) (join (c :: s) parts) = parts := by
  induction parts with
  | nil => exact absurd rfl hne
  | cons part parts ih =>
    obtain ⟨hpart, hparts⟩ := List.forall_mem_cons.mp h
    cases parts with
    | nil => simpa [split, join] using splitFrom_last hpart []
    | cons next parts =>
      have hjoin : join (c :: s) (part :: next :: parts) = part ++ (c :: s ++ join (c :: s) (next :: parts)) := by
        simp [join, List.intercalate]
      rw [hjoin, split, splitFrom_append hc hpart, ih (by simp) hparts]
      simp

/-- `f"{n:>2}"` -/
def natText2 (n : Nat) : Str :=
  let digits := Nat.toDigits 10 n
  List.replicate (2 - digits.length) ' ' ++ digits

/-- `sorted(l, key=key)` -/
def sortedBy [LinearOrder κ] (key : α → κ) (l : List α) : List α := l.insertionSort fun x y => key x ≤ key y

theorem sortedBy_perm [LinearOrder κ] (key : α → κ) (l : List α) : (sortedBy key l).Perm l :=
  List.perm_insertionSort _ l

theorem sortedBy_congr [LinearOrder κ] {key : α → κ} (hperm : l.Perm l')
    (hkey : ∀ x ∈ l, ∀ y ∈ l, key x = key y → x = y) : sortedBy key l = sortedBy key l' := by
  have hp := (sortedBy_perm key l).trans (hperm.trans (sortedBy_perm key l').symm)
  refine hp.eq_of_pairwise ?_ (List.pairwise_insertionSort _ _) (List.pairwise_insertionSort _ _)
  intro x y hx hy hxy hyx
  have hx : x ∈ l := (sortedBy_perm key l).mem_iff.mp hx
  have hy : y ∈ l := hperm.mem_iff.mpr ((sortedBy_perm key l').mem_iff.mp hy)
  exact hkey x hx y hy (le_antisymm hxy hyx)

-- ---------------------------------------------------------------------------
-- Searches of re
-- ---------------------------------------------------------------------------

namespace Unicode

variable (u : Unicode)

/-- `\w` -/
def isWord (c : Char) : Bool := u.isAlnum c || c = '_'

def wordAt (s : Str) (i : Nat) : Bool := s[i]?.any u.isWord

/-- `\b` before the code point at `i`. -/
def boundary (s : Str) (i : Nat) : Bool := (i != 0 && u.wordAt s (i - 1)) != u.wordAt s i

/-- `re.search(rf"\b{re.escape(t)}\b", s)` -/
def searchWord (t s : Str) : Bool :=
  (List.range (s.length + 1)).any fun i =>
    t.isPrefixOf (s.drop i) && u.boundary s i && u.boundary s (i + t.length)

/-- `re.search(r"\b\d{4}\b", s)` -/
def searchYear (s : Str) : Bool :=
  (List.range (s.length + 1)).any fun i =>
    let digits := (s.drop i).take 4
    digits.length = 4 && digits.all u.isDecimal && u.boundary s i && u.boundary s (i + 4)

variable {u}

theorem wordAt_eq_false (h : s.length ≤ i) : u.wordAt s i = false := by
  simp [wordAt, List.getElem?_eq_none h]

/-- `t` cannot overlap `sep`: at every offset some code point differs. -/
def Clash (t sep : Str) : Prop :=
  (∀ i < sep.length, ∃ k < t.length, i + k < sep.length ∧ t[k]? ≠ sep[i + k]?) ∧
    ∀ i < t.length, 0 < i → ∃ k < sep.length, i + k < t.length ∧ t[i + k]? ≠ sep[k]?

instance (t sep : Str) : Decidable (Clash t sep) := by
  unfold Clash
  infer_instance

theorem searchWord_iff :
    u.searchWord t s = true ↔
      ∃ i ≤ s.length, t <+: s.drop i ∧ u.boundary s i = true ∧ u.boundary s (i + t.length) = true := by
  simp only [searchWord, List.any_eq_true, List.mem_range, Nat.lt_add_one_iff, Bool.and_eq_true, List.isPrefixOf_iff_prefix,
    and_assoc]

section

variable {sep : Str} (hfirst : u.wordAt sep 0 = false) (hlast : u.wordAt sep (sep.length - 1) = false)
  (hsep : 0 < sep.length)

include hfirst hsep in
theorem boundary_left (a b : Str) (hi : i ≤ a.length) : u.boundary (a ++ (sep ++ b)) i = u.boundary a i := by
  have hword {j : Nat} (hj : j ≤ a.length) : u.wordAt (a ++ (sep ++ b)) j = u.wordAt a j := by
    rcases Nat.lt_or_eq_of_le hj with hlt | rfl
    · rw [wordAt, wordAt, List.getElem?_append_left hlt]
    · rw [wordAt_eq_false (le_refl _), ← hfirst, wordAt, wordAt, List.getElem?_append_right (le_refl _), Nat.sub_self,
        List.getElem?_append_left hsep]
  rw [boundary, boundary, hword hi, hword (Nat.le_trans (Nat.sub_le i 1) hi)]

include hlast hsep in
theorem boundary_right (a b : Str) (i : Nat) :
    u.boundary (a ++ (sep ++ b)) (a.length + sep.length + i) = u.boundary b i := by
  have hword (j : Nat) : u.wordAt (a ++ (sep ++ b)) (a.length + sep.length + j) = u.wordAt b j := by
    rw [wordAt, wordAt, ← List.append_assoc, List.getElem?_append_right (by simp), List.length_append,
      Nat.add_sub_cancel_left]
  rw [boundary, boundary, hword]
  cases i with
  | zero =>
    have hbefore : u.wordAt (a ++ (sep ++ b)) (a.length + sep.length + 0 - 1) = false := by
      rw [← hlast, wordAt, wordAt, List.getElem?_append_right (by omega), List.getElem?_append_left (by omega)]
      congr 2
      omega
    rw [hbefore]
    simp
  | succ i =>
    have hpred : a.length + sep.length + (i + 1) - 1 = a.length + sep.length + i := by omega
    rw [hpred, hword]
    simp

theorem prefix_append_cases (hclash : Clash t sep) (ht : 0 < t.length) (h : t <+: (a ++ (sep ++ b)).drop i) :
    i + t.length ≤ a.length ∧ t <+: a.drop i ∨
      ∃ j, i = a.length + sep.length + j ∧ j ≤ b.length ∧ t <+: b.drop j := by
  have hlength : i + t.length ≤ a.length + (sep.length + b.length) := by
    have := h.length_le
    simp only [List.length_drop, List.length_append] at this
    omega
  have hat {k : Nat} (hk : k < t.length) : (a ++ (sep ++ b))[i + k]? = t[k]? := by
    rw [← List.getElem?_drop]
    exact (List.prefix_iff_getElem?.mp h k hk).trans (List.getElem?_eq_getElem hk).symm
  have hmid {k : Nat} (hk : k < sep.length) : (a ++ (sep ++ b))[a.length + k]? = sep[k]? := by
    rw [List.getElem?_append_right (by omega), Nat.add_sub_cancel_left, List.getElem?_append_left hk]
  by_cases hleft : i + t.length ≤ a.length
  · refine .inl ⟨hleft, ?_⟩
    rw [List.drop_append_of_le_length (by omega)] at h
    exact List.prefix_of_prefix_length_le h (List.prefix_append _ _) (by simp; omega)
  · by_cases hright : a.length + sep.length ≤ i
    · obtain ⟨j, rfl⟩ := Nat.exists_eq_add_of_le hright
      refine .inr ⟨j, rfl, by omega, ?_⟩
      rwa [← List.append_assoc, List.drop_append, List.drop_eq_nil_of_le (by simp), List.nil_append,
        List.length_append, Nat.add_sub_cancel_left] at h
    · exfalso
      rcases Nat.le_total a.length i with hle | hle
      · obtain ⟨d, rfl⟩ := Nat.exists_eq_add_of_le hle
        obtain ⟨k, hk, hdk, hne⟩ := hclash.1 d (by omega)
        rw [← hat hk, Nat.add_assoc, hmid hdk] at hne
        exact hne rfl
      · obtain ⟨d, hd⟩ := Nat.exists_eq_add_of_le hle
        rcases Nat.eq_zero_or_pos d with rfl | hpos
        · obtain ⟨k, hk, hdk, hne⟩ := hclash.1 0 (by omega)
          rw [Nat.zero_add] at hdk hne
          rw [← hat hk, ← hmid hdk, hd, Nat.add_zero] at hne
          exact hne rfl
        · obtain ⟨k, hk, hdk, hne⟩ := hclash.2 d (by omega) hpos
          rw [← hat hdk, ← hmid hk, hd, Nat.add_assoc] at hne
          exact hne rfl

include hfirst hlast hsep in
theorem searchWord_append (hclash : Clash t sep) (ht : 0 < t.length) (a b : Str) :
    u.searchWord t (a ++ (sep ++ b)) = (u.searchWord t a || u.searchWord t b) := by
  rw [Bool.eq_iff_iff, Bool.or_eq_true, searchWord_iff, searchWord_iff, searchWord_iff]
  constructor
  · rintro ⟨i, -, hpre, hstart, hend⟩
    rcases prefix_append_cases hclash ht hpre with ⟨hle, hleft⟩ | ⟨j, rfl, hj, hright⟩
    · rw [boundary_left hfirst hsep a b (by omega)] at hstart
      rw [boundary_left hfirst hsep a b hle] at hend
      exact .inl ⟨i, by omega, hleft, hstart, hend⟩
    · rw [boundary_right hlast hsep] at hstart
      rw [Nat.add_assoc, boundary_right hlast hsep] at hend
      exact .inr ⟨j, hj, hright, hstart, hend⟩
  · rintro (⟨i, hi, hpre, hstart, hend⟩ | ⟨j, hj, hpre, hstart, hend⟩)
    · have hle : i + t.length ≤ a.length := by
        have := hpre.length_le
        rw [List.length_drop] at this
        omega
      refine ⟨i, by simp; omega, ?_, ?_, ?_⟩
      · rw [List.drop_append_of_le_length hi]
        exact hpre.trans (List.prefix_append _ _)
      · rwa [boundary_left hfirst hsep a b hi]
      · rwa [boundary_left hfirst hsep a b hle]
    · refine ⟨a.length + sep.length + j, by simp; omega, ?_, ?_, ?_⟩
      · rwa [← List.append_assoc, List.drop_append, List.drop_eq_nil_of_le (by simp), List.nil_append,
          List.length_append, Nat.add_sub_cancel_left]
      · rwa [boundary_right hlast hsep]
      · rwa [Nat.add_assoc, boundary_right hlast hsep]

end

end Unicode

/-- ASCII and the Greek sigma; every other code point has no case and is no letter. -/
def sampleUnicode : Unicode where
  lowerChar c := if c.toNat < 128 then [c.toLower] else [c]
  upperChar c := if c.toNat < 128 then [c.toUpper] else [c]
  isCased c := if c.toNat < 128 then c.isAlpha else c ∈ ['Σ', 'σ', 'ς']
  isCaseIgnorable c := c ∈ ['\'', '.', ':', '^', '\x60']
  isAlnum c := if c.toNat < 128 then c.isAlphanum else c ∈ ['Σ', 'σ', 'ς']
  isDecimal c := c.isDigit
  lowerChar_ne_nil c := by split <;> simp
  lowerChar_ascii c hc := if_pos hc
  lowerChar_other c hc d hd hascii := by
    rw [if_neg (Nat.not_lt.mpr hc), List.mem_singleton] at hd
    exact absurd hascii (hd ▸ Nat.not_lt.mpr hc)
  isCased_ascii c hc := if_pos hc
  isCaseIgnorable_ascii c hc := rfl
  isAlnum_ascii c hc := if_pos hc

end Python
