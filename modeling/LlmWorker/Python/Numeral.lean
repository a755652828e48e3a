import LlmWorker.Python.JsonDumps
import LlmWorker.Python.Str

/-!
# Numbers in text

`int` and `float` of a string: white space around it, a sign, decimal digits of
any script, and single underscores between digits. The integer is exact; which
float a decimal numeral is rounded to is left to `FloatText`.
-/

namespace Python

open JsonText

/-- The decimal digits of Unicode. -/
structure Decimals where
  digit : Char → Option Nat
  digit_lt : ∀ c d, digit c = some d → d < 10
  digit_ascii : ∀ c, c.toNat < 128 → digit c = if c.isDigit then some (c.toNat - 48) else none

section
variable (D : Decimals)

/-- `_PyUnicode_TransformDecimalAndSpaceToASCII`, white space aside. -/
def asciiDigits (s : Str) : Str := s.map fun c => (D.digit c).elim c Nat.digitChar

/-- The information separators are white space to `str`, and not to a number. -/
def isNumberSpace (c : Char) : Bool := isSpace c && !(0x1c ≤ c.toNat && c.toNat ≤ 0x1f)

def stripNumber (s : Str) : Str := dropEnd isNumberSpace (s.dropWhile isNumberSpace)

/-- Without underscores, each of which stands between two digits; `last` is what precedes the text. -/
def dropUnderscores (last : Char) : Str → Option Str
  | [] => if last = '_' then none else some []
  | c :: s =>
    if c = '_' then
      if last.isDigit then dropUnderscores c s else none
    else if last = '_' ∧ c.isDigit = false then none
    else (dropUnderscores c s).map (c :: ·)

/-- The sign of a numeral, and the rest. -/
def numeral (s : Str) : Option (List Char × Str) :=
  let (sign, t) := readSign (stripNumber (asciiDigits D s))
  (dropUnderscores ' ' t).map fun t => (sign, t)

/-- `sys.get_int_max_str_digits()` -/
def intMaxStrDigits : Nat := 4300

/-- `int(s)`, or `none` when it raises `ValueError`. -/
def intOfStr (s : Str) : Option Int :=
  match numeral D s with
  | some (sign, ds) =>
    if Digits ds ∧ ds.length ≤ intMaxStrDigits then some (signed (sign = ['-']) (Nat.ofDigitChars 10 ds 0)) else none
  | none => none

def trimZeros (ds : Str) : Str :=
  match ds.dropWhile (· = '0') with
  | [] => ['0']
  | ds => ds

/-- A decimal numeral without its sign. There may be leading zeros, and no digits before the point or after it. -/
def decimal (minus : Bool) (s : Str) : Option Literal :=
  let int := s.takeWhile Char.isDigit
  let (frac, s) := readFrac (s.dropWhile Char.isDigit)
  let (exp, r) := readExp s
  let frac := if frac = some [] then none else frac
  if r = [] ∧ (int ≠ [] ∨ frac ≠ none) then
    (readLiteral (signText minus ++ (trimZeros int ++ (fracText frac ++ expText exp)))).map (·.1)
  else none

/-- `float(s)`, or `none` when it raises `ValueError`. -/
def floatOfStr (F : FloatText) (s : Str) : Option Float :=
  match numeral D s with
  | some (sign, t) =>
    let minus := sign = ['-']
    let word := t.map Char.toLower
    if word = ['i', 'n', 'f'] ∨ word = ['i', 'n', 'f', 'i', 'n', 'i', 't', 'y'] then
      some (if minus then .negInf else .inf)
    else if word = ['n', 'a', 'n'] then some .nan
    else (decimal minus t).map F.read
  | none => none

end

/-- `float.__repr__` -/
def floatRepr (F : FloatText) : Float → List Char
  | .finite x h => (F.repr x h).text
  | .negZero => Literal.negZero.text
  | .inf => ['i', 'n', 'f']
  | .negInf => ['-', 'i', 'n', 'f']
  | .nan => ['n', 'a', 'n']

-- ---------------------------------------------------------------------------
-- Numerals are read back
-- ---------------------------------------------------------------------------

section
variable {D : Decimals}

theorem asciiDigits_eq {s : Str} (h : ∀ c ∈ s, c.toNat < 128) : asciiDigits D s = s := by
  have hchar : ∀ c ∈ s, (D.digit c).elim c Nat.digitChar = c := by
    intro c hc
    rw [D.digit_ascii c (h c hc)]
    by_cases hdigit : c.isDigit = true
    · rw [if_pos hdigit]
      have hrange : 48 ≤ c.toNat ∧ c.toNat ≤ 57 := by simpa [Char.isDigit, UInt32.le_iff_toNat_le] using hdigit
      refine Char.toNat_inj.mp ?_
      rw [Option.elim_some, Nat.toNat_digitChar_of_lt_ten (by omega)]
      omega
    · rw [if_neg hdigit, Option.elim_none]
  rw [asciiDigits, List.map_congr_left hchar, List.map_id']

theorem stripNumber_eq {s : Str} (h : ∀ c ∈ s, isNumberSpace c = false) : stripNumber s = s := by
  have hdrop {t : Str} (ht : ∀ c ∈ t, isNumberSpace c = false) : t.dropWhile isNumberSpace = t := by
    cases t with
    | nil => rfl
    | cons c t => simp [ht c List.mem_cons_self]
  rw [stripNumber, hdrop h, dropEnd, hdrop (by simpa using h), List.reverse_reverse]

theorem dropUnderscores_eq {s : Str} (h : '_' ∉ s) (hlast : last ≠ '_') : dropUnderscores last s = some s := by
  induction s generalizing last with
  | nil => simp [dropUnderscores, hlast]
  | cons c s ih =>
    rw [List.mem_cons, not_or] at h
    have hc : c ≠ '_' := Ne.symm h.1
    simp [dropUnderscores, hc, hlast, ih h.2 hc]

def isPlain (c : Char) : Bool := decide (0x21 ≤ c.toNat ∧ c.toNat ≤ 0x7e) && c != '_'

theorem numeral_eq {s : Str} (h : ∀ c ∈ s, isPlain c = true) (hsign : readSign s = (sign, t)) :
    numeral D s = some (sign, t) := by
  have hrange : ∀ c ∈ s, 0x21 ≤ c.toNat ∧ c.toNat ≤ 0x7e := by
    intro c hc
    have hplain := h c hc
    rw [isPlain, Bool.and_eq_true, decide_eq_true_eq] at hplain
    exact hplain.1
  have hascii : ∀ c ∈ s, c.toNat < 128 := fun c hc => Nat.lt_of_le_of_lt (hrange c hc).2 (by decide)
  have hspace : ∀ c ∈ s, isNumberSpace c = false := by
    intro c hc
    have hc := hrange c hc
    simp only [isNumberSpace, isSpace, Bool.and_eq_false_iff, Bool.or_eq_false_iff, decide_eq_false_iff_not]
    omega
  have hsplit : sign ++ t = s := by simpa [hsign] using readSign_text s
  have hunderscore : '_' ∉ t := fun hmem => absurd (h '_' (hsplit ▸ List.mem_append_right _ hmem)) (by decide)
  have hdrop : dropUnderscores ' ' t = some t := dropUnderscores_eq hunderscore (by decide)
  simp only [numeral, asciiDigits_eq hascii, stripNumber_eq hspace, hsign, hdrop, Option.map_some]

theorem plain_of_literal (lit : Literal) : ∀ c ∈ lit.text, isPlain c = true := by
  intro c hc
  cases mem_literal lit c hc with
  | inl hdigit =>
    have hrange : 48 ≤ c.toNat ∧ c.toNat ≤ 57 := by simpa [Char.isDigit, UInt32.le_iff_toNat_le] using hdigit
    have hne : c ≠ '_' := by
      rintro rfl
      exact absurd hdigit (by decide)
    have hin : 0x21 ≤ c.toNat ∧ c.toNat ≤ 0x7e := by omega
    simp [isPlain, hin, hne]
  | inr hmark =>
    have hmarks : ∀ c ∈ ['-', '+', '.', 'e', 'E'], isPlain c = true := List.all_eq_true.mp (by decide)
    exact hmarks c hmark

def unsignedText (lit : Literal) : List Char := lit.int ++ (fracText lit.frac ++ expText lit.exp)

theorem numeral_literal (lit : Literal) : numeral D lit.text = some (signText lit.minus, unsignedText lit) := by
  refine numeral_eq (plain_of_literal lit) (readSign_complete ?_ lit.int_digits _)
  cases lit.minus
  · exact .inl rfl
  · exact .inr (.inr rfl)

-- ---------------------------------------------------------------------------
-- Integers
-- ---------------------------------------------------------------------------

theorem ofDigitChars_lt {ds : List Char} (h : ∀ c ∈ ds, c.isDigit = true) (n : Nat) :
    Nat.ofDigitChars 10 ds n < (n + 1) * 10 ^ ds.length := by
  induction ds generalizing n with
  | nil => simp
  | cons c ds ih =>
    obtain ⟨hc, hds⟩ := List.forall_mem_cons.mp h
    have hrange : 48 ≤ c.toNat ∧ c.toNat ≤ 57 := by simpa [Char.isDigit, UInt32.le_iff_toNat_le] using hc
    have hzero : '0'.toNat = 48 := rfl
    rw [Nat.ofDigitChars_cons, List.length_cons, Nat.pow_succ']
    calc Nat.ofDigitChars 10 ds (10 * n + (c.toNat - '0'.toNat))
        < (10 * n + (c.toNat - '0'.toNat) + 1) * 10 ^ ds.length := ih hds _
      _ ≤ ((n + 1) * 10) * 10 ^ ds.length := Nat.mul_le_mul_right _ (by omega)
      _ = (n + 1) * (10 * 10 ^ ds.length) := Nat.mul_assoc _ _ _

theorem natAbs_intOfStr {s : Str} (h : intOfStr D s = some i) : i.natAbs < 10 ^ intMaxStrDigits := by
  unfold intOfStr at h
  split at h
  · split at h
    · rename_i sign ds _ hds
      have hlt := ofDigitChars_lt hds.1.2 0
      have hle : 10 ^ ds.length ≤ 10 ^ intMaxStrDigits := Nat.pow_le_pow_right (by decide) hds.2
      have habs : i.natAbs = Nat.ofDigitChars 10 ds 0 := by
        rw [← Option.some.inj h, signed]
        split <;> simp
      omega
    · cases h
  · cases h

theorem intOfStr_intText (h : i.natAbs < 10 ^ intMaxStrDigits) : intOfStr D (intText i) = some i := by
  have hlength : (Nat.toDigits 10 i.natAbs).length ≤ intMaxStrDigits :=
    (Nat.length_toDigits_le_iff (by decide) (by decide)).mpr h
  have hdigits : Digits (Nat.toDigits 10 i.natAbs) := (intLiteral i).int_digits
  have hnumeral : numeral D (intText i) = some (signText (decide (i < 0)), Nat.toDigits 10 i.natAbs) := by
    rw [← intLiteral_text, numeral_literal]
    simp [unsignedText, intLiteral, fracText, expText]
  have hminus : decide (signText (decide (i < 0)) = ['-']) = decide (i < 0) := by
    cases decide (i < 0) <;> rfl
  simp only [intOfStr, hnumeral, hminus, Nat.ofDigitChars_ten_toDigits, signed_natAbs]
  exact if_pos ⟨hdigits, hlength⟩

-- ---------------------------------------------------------------------------
-- Floats
-- ---------------------------------------------------------------------------

variable {F : FloatText}

theorem trimZeros_int (lit : Literal) : trimZeros lit.int = lit.int := by
  have hzero := lit.int_zero
  have hdigits := lit.int_digits
  cases hint : lit.int with
  | nil => exact absurd hint hdigits.1
  | cons c ds =>
    rw [hint] at hzero
    by_cases hc : c = '0'
    · rw [hzero (congrArg some hc)]
      rfl
    · simp [trimZeros, hc]

theorem decimal_literal (lit : Literal) : decimal lit.minus (unsignedText lit) = some lit := by
  have hstops : Stops [] := by simp [Stops]
  have hexp := head_expText lit.exp_valid hstops
  have hnodigit : NoDigit (fracText lit.frac ++ expText lit.exp) := by
    cases hfrac : lit.frac with
    | some ds =>
      rintro c ⟨⟩
      rfl
    | none =>
      simp only [List.append_nil] at hexp
      exact fun c hc => (hexp c hc).1
  obtain ⟨htake, hdrop⟩ := span_digits lit.int_digits.2 hnodigit
  have hfrac : readFrac (fracText lit.frac ++ expText lit.exp) = (lit.frac, expText lit.exp) := by
    simp only [List.append_nil] at hexp
    exact readFrac_complete lit.frac_digits (fun c hc => (hexp c hc).1) fun c hc => (hexp c hc).2
  have hread : readExp (expText lit.exp) = (lit.exp, []) := by
    have hcomplete := readExp_complete lit.exp_valid hstops
    rwa [List.append_nil] at hcomplete
  have hnormal : (if lit.frac = some [] then none else lit.frac) = lit.frac := by
    refine if_neg fun hnil => ?_
    exact (lit.frac_digits [] hnil).1 rfl
  have hwhole : readLiteral lit.text = some (lit, []) := by
    have hcomplete := readLiteral_complete lit hstops
    rwa [List.append_nil] at hcomplete
  have hint : lit.int ≠ [] ∨ lit.frac ≠ none := .inl lit.int_digits.1
  simp only [decimal, unsignedText, htake, hdrop, hfrac, hread, hnormal, trimZeros_int]
  rw [← Literal.text, hwhole, if_pos ⟨trivial, hint⟩]
  rfl

theorem not_word (lit : Literal) (word : List Char) (hword : ∀ c ∈ word.head?, c.isDigit = false) :
    (unsignedText lit).map Char.toLower ≠ word := by
  have hdigits := lit.int_digits
  rintro rfl
  cases hint : lit.int with
  | nil => exact absurd hint hdigits.1
  | cons c ds =>
    have hc : c.isDigit = true := hdigits.2 c (by simp [hint])
    have hlower : c.toLower = c := by
      have hrange : 48 ≤ c.toNat ∧ c.toNat ≤ 57 := by simpa [Char.isDigit, UInt32.le_iff_toNat_le] using hc
      refine dif_neg fun hupper => ?_
      have hlow : 65 ≤ c.toNat := UInt32.le_iff_toNat_le.mp hupper.1
      omega
    have hhead := hword c.toLower (by simp [unsignedText, hint])
    rw [hlower, hc] at hhead
    cases hhead

theorem floatOfStr_literal (lit : Literal) : floatOfStr D F lit.text = some (F.read lit) := by
  have hminus : decide (signText lit.minus = ['-']) = lit.minus := by cases lit.minus <;> rfl
  have hinf := not_word lit ['i', 'n', 'f'] (by simp)
  have hinfinity := not_word lit ['i', 'n', 'f', 'i', 'n', 'i', 't', 'y'] (by simp)
  have hnan := not_word lit ['n', 'a', 'n'] (by simp)
  simp only [floatOfStr, numeral_literal, hminus, hinf, hinfinity, hnan, or_self, if_false, decimal_literal,
    Option.map_some]

theorem floatOfStr_repr (x : Float) : floatOfStr D F (floatRepr F x) = some x := by
  have hplain {s : Str} (h : s.all isPlain = true) : ∀ c ∈ s, isPlain c = true := List.all_eq_true.mp h
  have hinf : numeral D ['i', 'n', 'f'] = some ([], ['i', 'n', 'f']) := numeral_eq (hplain rfl) rfl
  have hnegInf : numeral D ['-', 'i', 'n', 'f'] = some (['-'], ['i', 'n', 'f']) := numeral_eq (hplain rfl) rfl
  have hnan : numeral D ['n', 'a', 'n'] = some ([], ['n', 'a', 'n']) := numeral_eq (hplain rfl) rfl
  have hword : 'i'.toLower = 'i' ∧ 'n'.toLower = 'n' ∧ 'f'.toLower = 'f' ∧ 'a'.toLower = 'a' := by decide
  cases x with
  | finite x h => rw [floatRepr, floatOfStr_literal, F.read_repr]
  | negZero => rw [floatRepr, floatOfStr_literal, F.read_negZero]
  | inf => simp [floatRepr, floatOfStr, hinf, hword]
  | negInf => simp [floatRepr, floatOfStr, hnegInf, hword]
  | nan => simp [floatRepr, floatOfStr, hnan, hword]

theorem floatOfStr_intText (hF : F.Exact) {i : Int} (h : i.natAbs < 2 ^ 53) (hpos : 0 ≤ i) :
    floatOfStr D F (intText i) = some (.finite i (isDouble_intCast h)) := by
  have hminus : ¬((intLiteral i).minus = true ∧ (intLiteral i).rat = 0) := by simp [intLiteral, hpos]
  have hread := hF (intLiteral i) (by rw [rat_intLiteral]; exact isDouble_intCast h) hminus
  rw [← intLiteral_text, floatOfStr_literal, hread]
  simp [rat_intLiteral]

end

end Python
