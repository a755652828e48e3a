import LlmWorker.Python.JsonText

/-!
# `json.dumps`

The encoder with its default options: ASCII only, and the tokens `NaN`,
`Infinity` and `-Infinity`, which RFC 8259 does not have. What it writes is a
JSON text exactly when the value holds none of the three, and then the text
denotes the value.
-/

namespace Python

/-- The value holds no NaN and no infinity. -/
inductive Json.Finite : Json → Prop
  | null : Finite .null
  | bool : Finite (.bool b)
  | int : Finite (.int i)
  | finite : Finite (.float (.finite x h))
  | negZero : Finite (.float .negZero)
  | str : Finite (.str s)
  | list (h : ∀ v ∈ items, Finite v) : Finite (.list items)
  | dict (h : ∀ kv ∈ items, Finite kv.2) : Finite (.dict items)

namespace JsonText

-- ---------------------------------------------------------------------------
-- The encoder
-- ---------------------------------------------------------------------------

/-- `ESCAPE_DCT`, without the control characters that have no letter. -/
def shortEscapes : List (Char × Char) :=
  [('\\', '\\'), ('\x22', '\x22'), ('\x08', 'b'), ('\x0c', 'f'), ('\n', 'n'), ('\r', 'r'), ('\t', 't')]

def hexText (n : Nat) : List Char :=
  [(n / 4096).digitChar, (n / 256 % 16).digitChar, (n / 16 % 16).digitChar, (n % 16).digitChar]

/-- `'\\u{0:04x}'.format(n)` -/
def unicodeText (n : Nat) : List Char := '\\' :: 'u' :: hexText n

/-- A character outside `[ -~]` is written in UTF-16. -/
def escapeChar (c : Char) : List Char :=
  match shortEscapes.lookup c with
  | some d => ['\\', d]
  | none =>
    if 0x20 ≤ c.toNat ∧ c.toNat ≤ 0x7e then [c]
    else if c.toNat < 0x10000 then unicodeText c.toNat
    else
      unicodeText (0xD800 + (c.toNat - 0x10000) / 0x400) ++ unicodeText (0xDC00 + (c.toNat - 0x10000) % 0x400)

/-- `encode_basestring_ascii` -/
def strText (s : String) : List Char := '\x22' :: (s.toList.flatMap escapeChar ++ ['\x22'])

def intText (i : Int) : List Char := signText (decide (i < 0)) ++ Nat.toDigits 10 i.natAbs

section
variable (F : FloatText)

/-- `floatstr` with `allow_nan`. -/
def floatText : Float → List Char
  | .finite x h => (F.repr x h).text
  | .negZero => Literal.negZero.text
  | .inf => ['I', 'n', 'f', 'i', 'n', 'i', 't', 'y']
  | .negInf => ['-', 'I', 'n', 'f', 'i', 'n', 'i', 't', 'y']
  | .nan => ['N', 'a', 'N']

mutual
def dumps : Json → List Char
  | .null => ['n', 'u', 'l', 'l']
  | .bool true => ['t', 'r', 'u', 'e']
  | .bool false => ['f', 'a', 'l', 's', 'e']
  | .int i => intText i
  | .float x => floatText F x
  | .str s => strText s
  | .list items => '[' :: ([',', ' '].intercalate (dumpsItems items) ++ [']'])
  | .dict items => '\x7b' :: ([',', ' '].intercalate (dumpsPairs items) ++ ['\x7d'])
def dumpsItems : List Json → List (List Char)
  | [] => []
  | v :: rest => dumps v :: dumpsItems rest
def dumpsPairs : List (String × Json) → List (List Char)
  | [] => []
  | (k, v) :: rest => (strText k ++ ([':', ' '] ++ dumps v)) :: dumpsPairs rest
end

def pairText (kv : String × Json) : List Char := strText kv.1 ++ ([':', ' '] ++ dumps F kv.2)

theorem dumpsItems_eq (items : List Json) : dumpsItems F items = items.map (dumps F) := by
  induction items with
  | nil => rfl
  | cons v rest ih => rw [dumpsItems, ih, List.map_cons]

theorem dumpsPairs_eq (items : List (String × Json)) : dumpsPairs F items = items.map (pairText F) := by
  induction items with
  | nil => rfl
  | cons kv rest ih => rw [dumpsPairs, ih, List.map_cons, pairText]

end

-- ---------------------------------------------------------------------------
-- Strings and numbers are read back
-- ---------------------------------------------------------------------------

theorem hexValue_digitChar : ∀ d < 16, hexValue d.digitChar = some d := by decide

theorem readHex_hexText (h : n < 0x10000) (s : List Char) : readHex (hexText n ++ s) = some (n, s) := by
  have h3 := hexValue_digitChar (n / 4096) (by omega)
  have h2 := hexValue_digitChar (n / 256 % 16) (by omega)
  have h1 := hexValue_digitChar (n / 16 % 16) (by omega)
  have h0 := hexValue_digitChar (n % 16) (by omega)
  simp [hexText, readHex, h3, h2, h1, h0]
  omega

theorem readChar_unicodeText (h : n < 0x10000) (s : List Char) :
    readChar (unicodeText n ++ s) =
      if isHigh n then readLow n s else if isLow n then none else some (Char.ofNat n, s) := by
  have hhex := readHex_hexText h s
  simp [unicodeText, readChar, readEscape, readUnicode, hhex]

theorem readLow_unicodeText (h : n < 0x10000) (hlow : isLow n = true) (high : Nat) (s : List Char) :
    readLow high (unicodeText n ++ s) =
      some (Char.ofNat (0x10000 + 0x400 * (high - 0xD800) + (n - 0xDC00)), s) := by
  have hhex := readHex_hexText h s
  simp [unicodeText, readLow, hhex, hlow]

theorem readChar_shortEscape : ∀ p ∈ shortEscapes, ∀ s, readChar ('\\' :: p.2 :: s) = some (p.1, s) := by
  simp [shortEscapes, readChar, readEscape, escapes, List.lookup_cons]

theorem readChar_escapeChar (c : Char) (s : List Char) : readChar (escapeChar c ++ s) = some (c, s) := by
  unfold escapeChar
  split
  · rename_i d hd
    obtain ⟨l₁, l₂, hsplit, -⟩ := List.lookup_eq_some_iff.mp hd
    exact readChar_shortEscape (c, d) (by simp [hsplit]) s
  · rename_i hnone
    have hbackslash : c ≠ '\\' := by
      rintro rfl
      exact absurd hnone (by decide)
    have hquote : c ≠ '\x22' := by
      rintro rfl
      exact absurd hnone (by decide)
    split
    · rename_i hascii
      have hge : ¬c.toNat < 0x20 := Nat.not_lt.mpr hascii.1
      simp [readChar, hbackslash, hquote, hge]
    have hvalid : c.toNat < 0xD800 ∨ 0xDFFF < c.toNat ∧ c.toNat < 0x110000 := c.valid
    split
    · rename_i hbmp
      have hhigh : isHigh c.toNat = false := by
        simp only [isHigh, decide_eq_false_iff_not]
        omega
      have hlow : isLow c.toNat = false := by
        simp only [isLow, decide_eq_false_iff_not]
        omega
      simp [readChar_unicodeText hbmp, hhigh, hlow]
    · rename_i hpair
      have hhigh : isHigh (0xD800 + (c.toNat - 0x10000) / 0x400) = true := by
        simp only [isHigh, decide_eq_true_eq]
        omega
      have hlow : isLow (0xDC00 + (c.toNat - 0x10000) % 0x400) = true := by
        simp only [isLow, decide_eq_true_eq]
        omega
      have hsum : 0x10000 + 0x400 * (0xD800 + (c.toNat - 0x10000) / 0x400 - 0xD800) +
          (0xDC00 + (c.toNat - 0x10000) % 0x400 - 0xDC00) = c.toNat := by omega
      rw [List.append_assoc, readChar_unicodeText (by omega), if_pos hhigh,
        readLow_unicodeText (by omega) hlow, hsum, Char.ofNat_toNat]

theorem stringAt_strText (s : String) (r : List Char) :
    StringAt s.toList (s.toList.flatMap escapeChar ++ ('\x22' :: r)) r := by
  induction s.toList with
  | nil => exact .close
  | cons c cs ih =>
    rw [List.flatMap_cons, List.append_assoc]
    exact .char (readChar_escapeChar c _) ih

theorem head_toDigits (h : n ≠ 0) : (Nat.toDigits 10 n).head? ≠ some '0' := by
  induction n using Nat.strongRecOn with
  | ind n ih =>
    by_cases hlt : n < 10
    · rw [Nat.toDigits_of_lt_base hlt]
      simpa using h
    · rw [Nat.toDigits_of_base_le (by omega) (by omega), List.head?_append]
      have hhead := ih (n / 10) (by omega) (by omega)
      cases hdigits : (Nat.toDigits 10 (n / 10)).head? with
      | none => simp [Nat.toDigits_ne_nil] at hdigits
      | some d =>
        rw [hdigits] at hhead
        exact hhead

def intLiteral (i : Int) : Literal where
  minus := decide (i < 0)
  int := Nat.toDigits 10 i.natAbs
  frac := none
  exp := none
  int_digits := ⟨Nat.toDigits_ne_nil, fun _ hc => Nat.isDigit_of_mem_toDigits (by decide) (by decide) hc⟩
  int_zero := by
    intro hhead
    by_cases hzero : i.natAbs = 0
    · rw [hzero, Nat.toDigits_zero]
    · exact absurd hhead (head_toDigits hzero)
  frac_digits := by simp
  exp_valid := no_exponent_valid

theorem intLiteral_text (i : Int) : (intLiteral i).text = intText i := by
  simp [Literal.text, intLiteral, intText, fracText, expText]

section
variable {F : FloatText}

theorem intLiteral_value (i : Int) : (intLiteral i).value F = .int i := by
  simp only [Literal.value, intLiteral, and_self, if_true, Nat.ofDigitChars_ten_toDigits, signed_natAbs]

theorem repr_value (x : Rat) (h : IsDouble x) : (F.repr x h).value F = .float (.finite x h) := by
  have hfloat : ¬((F.repr x h).frac = none ∧ (F.repr x h).exp = none) := by
    rintro ⟨hfrac, hexp⟩
    rcases F.repr_float x h with h | h
    · exact h hfrac
    · exact h hexp
  rw [Literal.value, if_neg hfloat, F.read_repr]

theorem negZero_value : Literal.negZero.value F = .float .negZero := by
  rw [Literal.value, if_neg (by simp [Literal.negZero]), F.read_negZero]

-- ---------------------------------------------------------------------------
-- Without NaN and infinities, the text denotes the value
-- ---------------------------------------------------------------------------

def Padding (pad : List Char) : Prop := pad = [] ∨ pad = [' ']

theorem Padding.ws (h : Padding pad) (s : List Char) : Ws (pad ++ s) s := by
  rcases h with rfl | rfl
  · exact .refl
  · exact .skip (by decide) .refl

theorem seq_derived {P : α → List Char → List Char → Prop} {Q : List α → List Char → List Char → Prop}
    (hlast : ∀ {s a r}, P a s r → Q [a] s r)
    (hmore : ∀ {s a t as r}, P a s (',' :: t) → Q as t r → Q (a :: as) s r) {text : α → List Char}
    (htext : ∀ a ∈ as, ∀ pad, Padding pad → ∀ r, P a (pad ++ (text a ++ r)) r) (hne : as ≠ [])
    (hpad : Padding pad) (r : List Char) :
    Q as (pad ++ ([',', ' '].intercalate (as.map text) ++ r)) r := by
  induction as generalizing pad with
  | nil => exact absurd rfl hne
  | cons a rest ih =>
    have ha := htext a List.mem_cons_self pad hpad
    have hrest := fun b hb => htext b (List.mem_cons_of_mem a hb)
    cases rest with
    | nil =>
      rw [List.map_singleton, List.intercalate_singleton]
      exact hlast (ha r)
    | cons b rest =>
      have htail := ih hrest (by simp) (.inr rfl)
      rw [List.map_cons, List.map_cons, List.intercalate_cons_cons, ← List.map_cons]
      simp only [List.append_assoc, List.cons_append, List.nil_append] at htail ⊢
      exact hmore (ha _) htail

theorem derives_element (h : ∀ r, Derives F (.value v) (dumps F v ++ r) r) (hpad : Padding pad)
    (r : List Char) : Derives F (.element v) (pad ++ (dumps F v ++ r)) r :=
  .element (hpad.ws _) (h r) .refl

theorem derives_member (h : ∀ r, Derives F (.value v) (dumps F v ++ r) r) (hpad : Padding pad)
    (r : List Char) : Derives F (.member (k, v)) (pad ++ (pairText F (k, v) ++ r)) r := by
  have hvalue := derives_element h (.inr rfl) r
  have hkey := stringAt_strText k (':' :: ([' '] ++ (dumps F v ++ r)))
  have hmember := Derives.member (hpad.ws _) hkey .refl hvalue
  simpa [pairText, strText] using hmember

theorem derives_dumps (h : v.Finite) (r : List Char) : Derives F (.value v) (dumps F v ++ r) r := by
  induction v using Json.induction generalizing r with
  | null => exact .null
  | bool b => cases b <;> constructor
  | int i =>
    rw [dumps, ← intLiteral_text, ← intLiteral_value (F := F) i]
    exact .number (intLiteral i)
  | float x =>
    cases h with
    | finite =>
      rw [dumps, floatText, ← repr_value]
      exact .number _
    | negZero =>
      rw [dumps, floatText, ← negZero_value (F := F)]
      exact .number _
  | str s =>
    have hs := stringAt_strText s r
    rw [dumps, strText, List.cons_append, List.append_assoc]
    simpa using Derives.string hs
  | list items ih =>
    cases h with
    | list hfinite =>
      rw [dumps, dumpsItems_eq, List.cons_append, List.append_assoc]
      cases items with
      | nil => exact .emptyArray .refl
      | cons v rest =>
        refine .array (seq_derived (P := fun v => Derives F (.element v))
          (Q := fun vs => Derives F (.elements vs)) .lastElement .elements
          (fun a ha pad hpad r => ?_) (List.cons_ne_nil v rest) (.inl rfl) (']' :: r))
        exact derives_element (ih a ha (hfinite a ha)) hpad r
  | dict items ih =>
    cases h with
    | dict hfinite =>
      rw [dumps, dumpsPairs_eq, List.cons_append, List.append_assoc]
      cases items with
      | nil => exact .emptyObject .refl
      | cons kv rest =>
        refine .object (seq_derived (P := fun kv => Derives F (.member kv))
          (Q := fun kvs => Derives F (.members kvs)) .lastMember .members
          (fun a ha pad hpad r => ?_) (List.cons_ne_nil kv rest) (.inl rfl) ('\x7d' :: r))
        exact derives_member (ih a ha (hfinite a ha)) hpad r

-- ---------------------------------------------------------------------------
-- With one of them, it is not JSON
-- ---------------------------------------------------------------------------

theorem head_joined (text : α → List Char) (a : α) (rest : List α) (s : List Char) :
    ∃ t, [',', ' '].intercalate ((a :: rest).map text) ++ s = text a ++ t := by
  cases rest with
  | nil => exact ⟨s, by simp [List.intercalate_singleton]⟩
  | cons b rest =>
    rw [List.map_cons, List.map_cons, List.intercalate_cons_cons]
    simp only [List.append_assoc]
    exact ⟨_, rfl⟩

theorem readSeq_of_none {one : List Char → Option (α × List Char)} (h : one s = none) (m : Nat) :
    readSeq one close m s = none := by
  cases m with
  | zero => rfl
  | succ m => simp [readSeq, h]

theorem readSeq_of_rest {one : List Char → Option (α × List Char)} (hclose : close ≠ ',')
    (h : one s = some (a, ',' :: t)) (ht : ∀ m, readSeq one close m t = none) (m : Nat) :
    readSeq one close m s = none := by
  cases m with
  | zero => rfl
  | succ m => simp [readSeq, h, hclose.symm, ht]

theorem readSeq_none (one : List Char → Option (α × List Char)) (text : α → List Char) (close : Char)
    {good : α → Prop} {as : List α} (hgood : ∀ a ∈ as, good a → ∀ pad, Padding pad → ∀ r, Ends r →
      (pad ++ (text a ++ r)).length < n → one (pad ++ (text a ++ r)) = some (a, r))
    (hbad : ∀ a ∈ as, ¬good a → ∀ pad, Padding pad → ∀ r, (pad ++ (text a ++ r)).length < n →
      one (pad ++ (text a ++ r)) = none)
    (hclose : close ≠ ',') (hsome : ∃ a ∈ as, ¬good a) (hpad : Padding pad)
    (hn : (pad ++ ([',', ' '].intercalate (as.map text) ++ (close :: r))).length < n) (m : Nat) :
    readSeq one close m (pad ++ ([',', ' '].intercalate (as.map text) ++ (close :: r))) = none := by
  induction as generalizing pad m with
  | nil =>
    obtain ⟨_, hmem, -⟩ := hsome
    cases hmem
  | cons a rest ih =>
    by_cases ha : good a
    · cases rest with
      | nil =>
        obtain ⟨b, hb, hnot⟩ := hsome
        obtain rfl : b = a := by simpa using hb
        exact absurd ha hnot
      | cons b rest =>
        have hlater : ∃ c ∈ b :: rest, ¬good c := by
          obtain ⟨c, hc, hnot⟩ := hsome
          rcases List.mem_cons.mp hc with rfl | hmem
          · exact absurd ha hnot
          · exact ⟨c, hmem, hnot⟩
        rw [List.map_cons, List.map_cons, List.intercalate_cons_cons, ← List.map_cons] at hn ⊢
        simp only [List.append_assoc] at hn ⊢
        have hone := hgood a List.mem_cons_self ha pad hpad _ (ends_comma _) hn
        have hrest (m : Nat) := ih (fun c hc => hgood c (List.mem_cons_of_mem a hc))
          (fun c hc => hbad c (List.mem_cons_of_mem a hc)) hlater (.inr rfl)
          (by simp only [List.length_append, List.length_cons] at hn ⊢; omega) m
        exact readSeq_of_rest hclose hone hrest m
    · obtain ⟨t, ht⟩ := head_joined text a rest (close :: r)
      rw [ht] at hn ⊢
      exact readSeq_of_none (hbad a List.mem_cons_self ha pad hpad t hn) m

theorem finite_list : (Json.list items).Finite ↔ ∀ v ∈ items, v.Finite :=
  ⟨fun h => by cases h; assumption, .list⟩

theorem finite_dict : (Json.dict items).Finite ↔ ∀ kv ∈ items, kv.2.Finite :=
  ⟨fun h => by cases h; assumption, .dict⟩

theorem exists_not {α : Type u} {l : List α} {p : α → Prop} (h : ¬∀ a ∈ l, p a) : ∃ a ∈ l, ¬p a := by
  obtain ⟨a, ha⟩ := Classical.not_forall.mp h
  exact ⟨a, Classical.not_imp.mp ha⟩

theorem head_dumps (F : FloatText) (v : Json) : ∃ c t, dumps F v = c :: t ∧ isBlank c = false ∧ c ≠ ']' := by
  by_cases h : v.Finite
  · obtain ⟨c, t, heq, hc⟩ := head_value (derives_dumps (F := F) h [])
    exact ⟨c, t, by simpa using heq, hc⟩
  · cases v with
    | float x =>
      cases x with
      | finite x hx => exact absurd .finite h
      | negZero => exact absurd .negZero h
      | _ => exact ⟨_, _, rfl, by decide, by decide⟩
    | list items => exact ⟨_, _, rfl, by decide, by decide⟩
    | dict items => exact ⟨_, _, rfl, by decide, by decide⟩
    | null => exact absurd .null h
    | bool b => exact absurd .bool h
    | int i => exact absurd .int h
    | str s => exact absurd .str h

theorem skipWs_dumps (hpad : Padding pad) (v : Json) (r : List Char) :
    skipWs (pad ++ (dumps F v ++ r)) = dumps F v ++ r := by
  obtain ⟨c, t, heq, hblank, -⟩ := head_dumps F v
  apply skipWs_complete (hpad.ws _)
  rw [heq]
  rintro _ ⟨⟩
  exact hblank

theorem readElement_none {value : List Char → Option (Json × List Char)} (hpad : Padding pad)
    (h : value (dumps F v ++ r) = none) : readElement value (pad ++ (dumps F v ++ r)) = none := by
  rw [readElement, skipWs_dumps hpad, h]
  rfl

theorem readMember_none {value : List Char → Option (Json × List Char)} (hpad : Padding pad)
    (h : value (dumps F v ++ r) = none) : readMember value (pad ++ (pairText F (k, v) ++ r)) = none := by
  have hkey := readString_complete (stringAt_strText k (':' :: ([' '] ++ (dumps F v ++ r))))
  have hskip : skipWs (pad ++ (pairText F (k, v) ++ r)) =
      '\x22' :: (k.toList.flatMap escapeChar ++ ('\x22' :: ':' :: ([' '] ++ (dumps F v ++ r)))) := by
    apply skipWs_complete
    · simpa [pairText, strText] using hpad.ws (pairText F (k, v) ++ r)
    · rintro _ ⟨⟩
      decide
  have hcolon : skipWs (':' :: ([' '] ++ (dumps F v ++ r))) = ':' :: ([' '] ++ (dumps F v ++ r)) :=
    skipWs_noBlank (by rintro _ ⟨⟩; decide)
  have hnone := readElement_none (.inr rfl) h
  simp only [readMember, hskip, if_true, hkey, hcolon, hnone, Option.map_none]

theorem readLiteral_none (h : (readMinus s).2.takeWhile Char.isDigit = []) : readLiteral s = none := by
  simp only [readLiteral, h]
  apply dif_neg
  rintro ⟨hint, -⟩
  exact hint.1 rfl

theorem readBody_none (one : List Char → Option (α × List Char)) (text : α → List Char) (close : Char)
    {good : α → Prop} {as : List α} (hgood : ∀ a ∈ as, good a → ∀ pad, Padding pad → ∀ r, Ends r →
      (pad ++ (text a ++ r)).length < n → one (pad ++ (text a ++ r)) = some (a, r))
    (hbad : ∀ a ∈ as, ¬good a → ∀ pad, Padding pad → ∀ r, (pad ++ (text a ++ r)).length < n →
      one (pad ++ (text a ++ r)) = none)
    (hhead : ∀ a ∈ as, ∃ c t, text a = c :: t ∧ isBlank c = false ∧ c ≠ close) (hclose : close ≠ ',')
    (hsome : ∃ a ∈ as, ¬good a) (hn : ([',', ' '].intercalate (as.map text) ++ (close :: r)).length < n) :
    readBody one close ([',', ' '].intercalate (as.map text) ++ (close :: r)) = none := by
  have hseq (m : Nat) := readSeq_none one text close hgood hbad hclose hsome (.inl rfl) hn m
  cases as with
  | nil =>
    obtain ⟨_, hmem, -⟩ := hsome
    cases hmem
  | cons a rest =>
    obtain ⟨t, ht⟩ := head_joined text a rest (close :: r)
    obtain ⟨c, u, hc, hblank, hne⟩ := hhead a List.mem_cons_self
    have hskip : skipWs ([',', ' '].intercalate ((a :: rest).map text) ++ (close :: r)) = c :: (u ++ t) := by
      rw [ht, hc]
      apply skipWs_noBlank
      rintro _ ⟨⟩
      exact hblank
    simp only [List.nil_append] at hseq
    simp only [readBody, hskip, if_neg hne, hseq]

/-- By induction on the value: the reader stops at the first token that is not JSON. -/
theorem readValue_dumps_none (h : ¬v.Finite) (r : List Char) (n : Nat) (hn : (dumps F v ++ r).length < n) :
    readValue F n (dumps F v ++ r) = none := by
  induction v using Json.induction generalizing r n with
  | null => exact absurd .null h
  | bool b => exact absurd .bool h
  | int i => exact absurd .int h
  | str s => exact absurd .str h
  | float x =>
    cases n with
    | zero => rfl
    | succ n =>
      cases x with
      | finite x hx => exact absurd .finite h
      | negZero => exact absurd .negZero h
      | _ => simp [dumps, floatText, readValue, readLiteral_none, readMinus]
  | list items ih =>
    cases n with
    | zero => rfl
    | succ n =>
      rw [dumps, dumpsItems_eq, List.cons_append, List.append_assoc, List.singleton_append] at hn ⊢
      have hn := Nat.lt_of_succ_lt_succ hn
      have hsome := exists_not (mt finite_list.mpr h)
      have hbody := readBody_none (readElement (readValue F n)) (dumps F) ']'
        (fun a _ ha pad hpad r hr hn => reads_of_derives (derives_element (derives_dumps ha) hpad r) hr n hn)
        (fun a hmem ha pad hpad r hn => readElement_none hpad (ih a hmem ha r n (by
          simp only [List.length_append] at hn ⊢
          omega)))
        (fun a _ => head_dumps F a) (by decide) hsome hn
      simp [readValue, hbody]
  | dict items ih =>
    cases n with
    | zero => rfl
    | succ n =>
      rw [dumps, dumpsPairs_eq, List.cons_append, List.append_assoc, List.singleton_append] at hn ⊢
      have hn := Nat.lt_of_succ_lt_succ hn
      have hsome := exists_not (mt finite_dict.mpr h)
      have hbody := readBody_none (readMember (readValue F n)) (pairText F) '\x7d'
        (fun a _ ha pad hpad r hr hn => reads_of_derives (derives_member (derives_dumps ha) hpad r) hr n hn)
        (fun a hmem ha pad hpad r hn => readMember_none hpad (ih a hmem ha r n (by
          simp only [pairText, List.length_append] at hn ⊢
          omega)))
        (fun a _ => ⟨'\x22', _, rfl, by decide, by decide⟩) (by decide) hsome hn
      simp [readValue, hbody]

/-- What is written is a JSON text only without NaN and infinities, and then it denotes the value. -/
theorem denotes_dumps_iff : Denotes F (String.ofList (dumps F v)) v' ↔ v.Finite ∧ v' = v := by
  rw [denotes_iff, String.toList_ofList]
  by_cases h : v.Finite
  · have hread : read F (dumps F v) = some v := by
      have hderives := derives_element (derives_dumps (F := F) h) (.inl rfl) []
      exact read_eq_some_iff.mpr (by simpa using hderives)
    rw [hread]
    simp [h, eq_comm]
  · have hnone : readValue F ((dumps F v).length + 1) (dumps F v ++ []) = none :=
      readValue_dumps_none h [] _ (by simp)
    have hread := readElement_none (.inl rfl) hnone
    simp only [List.nil_append, List.append_nil] at hread
    simp [read, hread, h]

end

-- ---------------------------------------------------------------------------
-- Which characters are written
-- ---------------------------------------------------------------------------

def isPrintable (c : Char) : Bool := 0x20 ≤ c.toNat ∧ c.toNat ≤ 0x7e

theorem printable_of_isDigit {c : Char} (h : c.isDigit = true) : isPrintable c = true := by
  have hdigit : 48 ≤ c.toNat ∧ c.toNat ≤ 57 := by simpa [Char.isDigit, UInt32.le_iff_toNat_le] using h
  simp only [isPrintable, decide_eq_true_eq]
  omega

theorem printable_digitChar : ∀ d < 16, isPrintable d.digitChar = true := by decide

theorem printable_unicodeText (h : n < 0x10000) : ∀ c ∈ unicodeText n, isPrintable c = true := by
  have h3 := printable_digitChar (n / 4096) (by omega)
  have h2 := printable_digitChar (n / 256 % 16) (by omega)
  have h1 := printable_digitChar (n / 16 % 16) (by omega)
  have h0 := printable_digitChar (n % 16) (by omega)
  have hu : isPrintable '\\' = true ∧ isPrintable 'u' = true := by decide
  simp [unicodeText, hexText, h3, h2, h1, h0, hu]

theorem printable_escapeChar (d : Char) : ∀ c ∈ escapeChar d, isPrintable c = true := by
  unfold escapeChar
  split
  · rename_i e he
    have hshort : ∀ p ∈ shortEscapes, isPrintable '\\' = true ∧ isPrintable p.2 = true := by decide
    obtain ⟨l₁, l₂, hsplit, -⟩ := List.lookup_eq_some_iff.mp he
    simpa using hshort (d, e) (by simp [hsplit])
  · have hvalid : d.toNat < 0xD800 ∨ 0xDFFF < d.toNat ∧ d.toNat < 0x110000 := d.valid
    split
    · rename_i hascii
      simpa [isPrintable] using hascii
    · split
      · rename_i hbmp
        exact printable_unicodeText hbmp
      · exact List.forall_mem_append.mpr ⟨printable_unicodeText (by omega), printable_unicodeText (by omega)⟩

theorem printable_strText (s : String) : ∀ c ∈ strText s, isPrintable c = true := by
  have hquote : isPrintable '\x22' = true := by decide
  simpa [strText, hquote, or_imp, forall_and] using fun c d _ => printable_escapeChar d c

theorem mem_literal (lit : Literal) : ∀ c ∈ lit.text, c.isDigit = true ∨ c ∈ ['-', '+', '.', 'e', 'E'] := by
  have hdigits {ds : List Char} (h : Digits ds) : ∀ c ∈ ds, c.isDigit = true ∨ c ∈ ['-', '+', '.', 'e', 'E'] :=
    fun c hc => .inl (h.2 c hc)
  have hsign : ∀ c ∈ signText lit.minus, c.isDigit = true ∨ c ∈ ['-', '+', '.', 'e', 'E'] := by
    cases lit.minus <;> simp [signText]
  have hfrac : ∀ c ∈ fracText lit.frac, c.isDigit = true ∨ c ∈ ['-', '+', '.', 'e', 'E'] := by
    cases hf : lit.frac with
    | none => simp [fracText]
    | some ds => exact List.forall_mem_cons.mpr ⟨by decide, hdigits (lit.frac_digits ds hf)⟩
  have hexp : ∀ c ∈ expText lit.exp, c.isDigit = true ∨ c ∈ ['-', '+', '.', 'e', 'E'] := by
    cases he : lit.exp with
    | none => simp [expText]
    | some e =>
      obtain ⟨hmark, hsign, hds⟩ := lit.exp_valid e he
      have hm : e.mark ∈ ['-', '+', '.', 'e', 'E'] := by rcases hmark with h | h <;> simp [h]
      have hs : ∀ c ∈ e.sign, c ∈ ['-', '+', '.', 'e', 'E'] := by rcases hsign with h | h | h <;> simp [h]
      exact List.forall_mem_cons.mpr
        ⟨.inr hm, List.forall_mem_append.mpr ⟨fun c hc => .inr (hs c hc), hdigits hds⟩⟩
  simp only [Literal.text, List.forall_mem_append]
  exact ⟨hsign, hdigits lit.int_digits, hfrac, hexp⟩

theorem printable_literal (lit : Literal) : ∀ c ∈ lit.text, isPrintable c = true := by
  have hmarks : ∀ c ∈ ['-', '+', '.', 'e', 'E'], isPrintable c = true := List.all_eq_true.mp (by decide)
  exact fun c hc => (mem_literal lit c hc).elim printable_of_isDigit (hmarks c)

theorem printable_joined {parts : List (List Char)} (h : ∀ part ∈ parts, ∀ c ∈ part, isPrintable c = true) :
    ∀ c ∈ [',', ' '].intercalate parts, isPrintable c = true := by
  have hsep : ∀ c ∈ [',', ' '], isPrintable c = true := List.all_eq_true.mp (by decide)
  induction parts with
  | nil => simp
  | cons part rest ih =>
    cases rest with
    | nil => simpa using h
    | cons next rest =>
      rw [List.intercalate_cons_cons]
      have hpart := List.forall_mem_cons.mp h
      simp only [List.forall_mem_append]
      exact ⟨⟨hpart.1, hsep⟩, ih hpart.2⟩

/-- Only characters of `[ -~]` are written, so a value is written on one line. -/
theorem printable_dumps (F : FloatText) (v : Json) : ∀ c ∈ dumps F v, isPrintable c = true := by
  induction v using Json.induction with
  | null =>
    rw [dumps]
    exact List.all_eq_true.mp (by decide)
  | bool b =>
    cases b with
    | true | false =>
      rw [dumps]
      exact List.all_eq_true.mp (by decide)
  | int i =>
    rw [dumps, ← intLiteral_text]
    exact printable_literal _
  | float x =>
    cases x with
    | finite x h => exact printable_literal _
    | negZero => exact printable_literal _
    | inf | negInf | nan =>
      rw [dumps, floatText]
      exact List.all_eq_true.mp (by decide)
  | str s => exact printable_strText s
  | list items ih =>
    have hparts : ∀ part ∈ items.map (dumps F), ∀ c ∈ part, isPrintable c = true := by
      simpa [List.forall_mem_map] using ih
    rw [dumps, dumpsItems_eq, List.forall_mem_cons, List.forall_mem_append]
    exact ⟨by decide, printable_joined hparts, List.all_eq_true.mp (by decide)⟩
  | dict items ih =>
    have hcolon : ∀ c ∈ [':', ' '], isPrintable c = true := List.all_eq_true.mp (by decide)
    have hparts : ∀ part ∈ items.map (pairText F), ∀ c ∈ part, isPrintable c = true := by
      simp only [List.forall_mem_map, pairText, List.forall_mem_append]
      exact fun kv hkv => ⟨printable_strText kv.1, hcolon, ih kv hkv⟩
    rw [dumps, dumpsPairs_eq, List.forall_mem_cons, List.forall_mem_append]
    exact ⟨by decide, printable_joined hparts, List.all_eq_true.mp (by decide)⟩

-- ---------------------------------------------------------------------------
-- Floats with exact texts
-- ---------------------------------------------------------------------------

def Exponent.value (e : Exponent) : Nat := Nat.ofDigitChars 10 e.digits 0

/-- The powers of ten by which a literal is multiplied and divided. -/
def Literal.scale (lit : Literal) : Nat × Nat :=
  let places := (lit.frac.getD []).length
  match lit.exp with
  | some e => if e.sign = ['-'] then (0, e.value + places) else (e.value, places)
  | none => (0, places)

def Literal.rat (lit : Literal) : Rat :=
  signed lit.minus (Nat.ofDigitChars 10 (lit.int ++ lit.frac.getD []) 0) * 10 ^ lit.scale.1 / 10 ^ lit.scale.2

theorem ten_pow (n : Nat) : (10 : Rat) ^ n = 2 ^ n * 5 ^ n := by
  induction n with
  | zero => simp
  | succ n ih =>
    simp only [Rat.pow_succ, ih]
    grind

theorem eq_div_ten_pow {x : Rat} {m : Int} (n : Nat) (h : x * 2 ^ n = m) :
    x = (x * 10 ^ n).num / 10 ^ n := by
  have hint : x * 10 ^ n = ((m * 5 ^ n : Int) : Rat) := by
    rw [ten_pow, ← Rat.mul_assoc, h]
    simp
  have hne : (10 : Rat) ^ n ≠ 0 := Rat.ne_of_gt (Rat.pow_pos (by decide))
  rw [hint, Rat.num_intCast, ← hint, Rat.div_def, Rat.mul_assoc, Rat.mul_inv_cancel _ hne, Rat.mul_one]

theorem eq_div_of_isDouble (h : IsDouble x) : x = (x * 10 ^ 1074).num / 10 ^ 1074 := by
  obtain ⟨m, k, -, -, heq⟩ := h
  exact eq_div_ten_pow (m := m * 2 ^ k) 1074 (by simpa using heq)

def exactRepr (x : Rat) : Literal :=
  { intLiteral (x * 10 ^ 1074).num with
    exp := some ⟨'e', ['-'], ['1', '0', '7', '4']⟩
    exp_valid := by
      rintro e ⟨⟩
      decide }

theorem rat_exactRepr (h : IsDouble x) : (exactRepr x).rat = x := by
  have hvalue : Exponent.value ⟨'e', ['-'], ['1', '0', '7', '4']⟩ = 1074 := by decide
  simp only [Literal.rat, Literal.scale, exactRepr, intLiteral, if_true, hvalue, Option.getD_none, List.length_nil,
    Nat.add_zero, List.append_nil, Nat.ofDigitChars_ten_toDigits, signed_natAbs, Rat.pow_zero, Rat.mul_one]
  exact (eq_div_of_isDouble h).symm

open Classical in
/-- The floats with the literals that are their exact values. -/
noncomputable def exactFloats : FloatText where
  read lit :=
    if lit.minus ∧ lit.rat = 0 then .negZero
    else if h : IsDouble lit.rat then .finite lit.rat h
    else .nan
  repr x _ := exactRepr x
  repr_float := by simp [exactRepr]
  read_repr x h := by
    have hminus : ¬((exactRepr x).minus = true ∧ (exactRepr x).rat = 0) := by
      rintro ⟨hm, hz⟩
      rw [rat_exactRepr h] at hz
      subst hz
      simp [exactRepr, intLiteral] at hm
    rw [if_neg hminus]
    simp [rat_exactRepr h, h]
  read_negZero := by
    have hzero : Literal.negZero.rat = 0 := by decide +kernel
    exact if_pos ⟨rfl, hzero⟩

/-- A numeral whose value is a float is read as that float. -/
def FloatText.Exact (F : FloatText) : Prop :=
  ∀ (lit : Literal) (h : IsDouble lit.rat), ¬(lit.minus = true ∧ lit.rat = 0) → F.read lit = .finite lit.rat h

theorem exactFloats_exact : exactFloats.Exact := by
  intro lit h hzero
  exact (if_neg hzero).trans (dif_pos h)

theorem rat_intLiteral (i : Int) : (intLiteral i).rat = i := by
  simp [Literal.rat, Literal.scale, intLiteral, signed_natAbs, Nat.ofDigitChars_ten_toDigits]

end JsonText

end Python
