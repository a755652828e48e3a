import LlmWorker.Python.Json

/-!
# JSON texts

The grammar of RFC 8259 with the value that a text denotes, and a reader that
accepts exactly the texts of the grammar. A phrase is derived from the front of
a text and leaves the rest. A number with a fraction or an exponent denotes a
float, any other number an integer; an object denotes its members in order.
-/

namespace Python.JsonText

-- ---------------------------------------------------------------------------
-- Numbers
-- ---------------------------------------------------------------------------

def Digits (ds : List Char) : Prop := ds ≠ [] ∧ ∀ c ∈ ds, c.isDigit = true

instance (ds : List Char) : Decidable (Digits ds) :=
  decidable_of_iff (ds.isEmpty = false ∧ ds.all Char.isDigit = true) (by simp [Digits])

/-- `exp = e [ minus / plus ] 1*DIGIT` -/
structure Exponent where
  mark : Char
  sign : List Char
  digits : List Char

def Exponent.Valid (e : Exponent) : Prop :=
  (e.mark = 'e' ∨ e.mark = 'E') ∧ (e.sign = [] ∨ e.sign = ['+'] ∨ e.sign = ['-']) ∧ Digits e.digits

instance (e : Exponent) : Decidable e.Valid :=
  inferInstanceAs (Decidable ((_ ∨ _) ∧ (_ ∨ _ ∨ _) ∧ Digits e.digits))

/-- `number = [ minus ] int [ frac ] [ exp ]`, where `int` has no leading zero. -/
structure Literal where
  minus : Bool
  int : List Char
  frac : Option (List Char)
  exp : Option Exponent
  int_digits : Digits int
  int_zero : int.head? = some '0' → int = ['0']
  frac_digits : ∀ ds ∈ frac, Digits ds
  exp_valid : ∀ e ∈ exp, e.Valid

def signText (minus : Bool) : List Char := if minus then ['-'] else []

def fracText : Option (List Char) → List Char
  | some ds => '.' :: ds
  | none => []

def expText : Option Exponent → List Char
  | some e => e.mark :: (e.sign ++ e.digits)
  | none => []

def Literal.text (lit : Literal) : List Char :=
  signText lit.minus ++ (lit.int ++ (fracText lit.frac ++ expText lit.exp))

theorem no_exponent_valid : ∀ e ∈ (none : Option Exponent), e.Valid := by simp

/-- `-0.0` -/
def Literal.negZero : Literal where
  minus := true
  int := ['0']
  frac := some ['0']
  exp := none
  int_digits := by decide
  int_zero := by decide
  frac_digits := by decide
  exp_valid := by simp

/-- `float(text)` of a literal, and `float.__repr__` of a finite float, which
`float` reads back and which is not the text of an integer. -/
structure FloatText where
  read : Literal → Float
  repr : (x : Rat) → IsDouble x → Literal
  repr_float : ∀ x h, (repr x h).frac ≠ none ∨ (repr x h).exp ≠ none
  read_repr : ∀ x h, read (repr x h) = .finite x h
  read_negZero : read .negZero = .negZero

def signed (minus : Bool) (n : Nat) : Int := if minus then -n else n

theorem signed_natAbs (i : Int) : signed (decide (i < 0)) i.natAbs = i := by
  simp only [signed, decide_eq_true_eq]
  split <;> omega

def Literal.value (F : FloatText) (lit : Literal) : Json :=
  if lit.frac = none ∧ lit.exp = none then .int (signed lit.minus (Nat.ofDigitChars 10 lit.int 0))
  else .float (F.read lit)

-- ---------------------------------------------------------------------------
-- Strings
-- ---------------------------------------------------------------------------

def hexValue (c : Char) : Option Nat :=
  if c.isDigit then some (c.toNat - 48)
  else if 'a' ≤ c ∧ c ≤ 'f' then some (c.toNat - 87)
  else if 'A' ≤ c ∧ c ≤ 'F' then some (c.toNat - 55)
  else none

/-- `4HEXDIG` -/
def readHex : List Char → Option (Nat × List Char)
  | a :: b :: c :: d :: s => do
    let a ← hexValue a
    let b ← hexValue b
    let c ← hexValue c
    let d ← hexValue d
    return (4096 * a + 256 * b + 16 * c + d, s)
  | _ => none

/-- What follows a backslash, other than `u`. -/
def escapes : List (Char × Char) :=
  [('\x22', '\x22'), ('\\', '\\'), ('/', '/'), ('b', '\x08'), ('f', '\x0c'), ('n', '\n'), ('r', '\r'),
    ('t', '\t')]

def isHigh (n : Nat) : Bool := 0xD800 ≤ n ∧ n < 0xDC00
def isLow (n : Nat) : Bool := 0xDC00 ≤ n ∧ n < 0xE000

/-- The second half of a surrogate pair. -/
def readLow (high : Nat) : List Char → Option (Char × List Char)
  | '\\' :: 'u' :: s => do
    let (low, r) ← readHex s
    if isLow low then some (.ofNat (0x10000 + 0x400 * (high - 0xD800) + (low - 0xDC00)), r) else none
  | _ => none

/-- Four hexadecimal digits. A surrogate outside a pair denotes no character. -/
def readUnicode (s : List Char) : Option (Char × List Char) := do
  let (n, r) ← readHex s
  if isHigh n then readLow n r
  else if isLow n then none
  else some (.ofNat n, r)

def readEscape : List Char → Option (Char × List Char)
  | [] => none
  | c :: s => if c = 'u' then readUnicode s else (escapes.lookup c).map fun d => (d, s)

/-- `char = unescaped / escape (…)` -/
def readChar : List Char → Option (Char × List Char)
  | [] => none
  | c :: s =>
    if c = '\\' then readEscape s
    else if c = '\x22' ∨ c.toNat < 0x20 then none
    else some (c, s)

/-- A string from its opening quote on, which is left out. -/
inductive StringAt : List Char → List Char → List Char → Prop
  | close : StringAt [] ('\x22' :: r) r
  | char (h : readChar s = some (c, t)) (ht : StringAt cs t r) : StringAt (c :: cs) s r

-- ---------------------------------------------------------------------------
-- The grammar
-- ---------------------------------------------------------------------------

def isBlank (c : Char) : Bool := c = ' ' ∨ c = '\t' ∨ c = '\n' ∨ c = '\r'

inductive Ws : List Char → List Char → Prop
  | refl : Ws s s
  | skip (hc : isBlank c = true) (h : Ws s r) : Ws (c :: s) r

/-- An element is a value with whitespace around it. -/
inductive Phrase
  | value (v : Json)
  | element (v : Json)
  | elements (vs : List Json)
  | member (kv : String × Json)
  | members (kvs : List (String × Json))

inductive Derives (F : FloatText) : Phrase → List Char → List Char → Prop
  | null : Derives F (.value .null) ('n' :: 'u' :: 'l' :: 'l' :: r) r
  | true : Derives F (.value (.bool true)) ('t' :: 'r' :: 'u' :: 'e' :: r) r
  | false : Derives F (.value (.bool false)) ('f' :: 'a' :: 'l' :: 's' :: 'e' :: r) r
  | number (lit : Literal) : Derives F (.value (lit.value F)) (lit.text ++ r) r
  | string (h : StringAt cs s r) : Derives F (.value (.str (String.ofList cs))) ('\x22' :: s) r
  | emptyArray (h : Ws s (']' :: r)) : Derives F (.value (.list [])) ('[' :: s) r
  | array (h : Derives F (.elements vs) s (']' :: r)) : Derives F (.value (.list vs)) ('[' :: s) r
  | emptyObject (h : Ws s ('\x7d' :: r)) : Derives F (.value (.dict [])) ('\x7b' :: s) r
  | object (h : Derives F (.members kvs) s ('\x7d' :: r)) : Derives F (.value (.dict kvs)) ('\x7b' :: s) r
  | element (hb : Ws s t) (h : Derives F (.value v) t u) (ha : Ws u r) : Derives F (.element v) s r
  | lastElement (h : Derives F (.element v) s r) : Derives F (.elements [v]) s r
  | elements (h : Derives F (.element v) s (',' :: t)) (ht : Derives F (.elements vs) t r) :
      Derives F (.elements (v :: vs)) s r
  | member (hb : Ws s ('\x22' :: t)) (hk : StringAt cs t u) (ha : Ws u (':' :: w))
      (h : Derives F (.element v) w r) : Derives F (.member (String.ofList cs, v)) s r
  | lastMember (h : Derives F (.member kv) s r) : Derives F (.members [kv]) s r
  | members (h : Derives F (.member kv) s (',' :: t)) (ht : Derives F (.members kvs) t r) :
      Derives F (.members (kv :: kvs)) s r

/-- `JSON-text = ws value ws` -/
def Denotes (F : FloatText) (text : String) (v : Json) : Prop := Derives F (.element v) text.toList []

-- ---------------------------------------------------------------------------
-- The reader
-- ---------------------------------------------------------------------------

def readMinus : List Char → Bool × List Char
  | '-' :: s => (true, s)
  | s => (false, s)

def readFrac : List Char → Option (List Char) × List Char
  | '.' :: s => (some (s.takeWhile Char.isDigit), s.dropWhile Char.isDigit)
  | s => (none, s)

def readSign : List Char → List Char × List Char
  | '+' :: s => (['+'], s)
  | '-' :: s => (['-'], s)
  | s => ([], s)

def readExp : List Char → Option Exponent × List Char
  | [] => (none, [])
  | c :: s =>
    if c = 'e' ∨ c = 'E' then
      let (sign, t) := readSign s
      (some ⟨c, sign, t.takeWhile Char.isDigit⟩, t.dropWhile Char.isDigit)
    else
      (none, c :: s)

def readLiteral (s : List Char) : Option (Literal × List Char) :=
  let (minus, s) := readMinus s
  let int := s.takeWhile Char.isDigit
  let (frac, s) := readFrac (s.dropWhile Char.isDigit)
  let (exp, r) := readExp s
  if h : Digits int ∧ (int.head? = some '0' → int = ['0']) ∧ (∀ ds ∈ frac, Digits ds) ∧
      ∀ e ∈ exp, e.Valid then
    some (⟨minus, int, frac, exp, h.1, h.2.1, h.2.2.1, h.2.2.2⟩, r)
  else
    none

def skipWs (s : List Char) : List Char := s.dropWhile isBlank

def readChars : Nat → List Char → Option (List Char × List Char)
  | 0, _ => none
  | n + 1, s =>
    if s.head? = some '\x22' then some ([], s.tail)
    else match readChar s with
      | some (c, t) => (readChars n t).map fun r => (c :: r.1, r.2)
      | none => none

def readString (s : List Char) : Option (List Char × List Char) := readChars (s.length + 1) s

section
variable (one : List Char → Option (α × List Char)) (close : Char)

def readSeq : Nat → List Char → Option (List α × List Char)
  | 0, _ => none
  | n + 1, s =>
    match one s with
    | some (a, c :: t) =>
      if c = close then some ([a], t)
      else if c = ',' then (readSeq n t).map fun r => (a :: r.1, r.2)
      else none
    | _ => none

/-- An array or an object from its opening bracket on, which is left out. -/
def readBody (s : List Char) : Option (List α × List Char) :=
  match skipWs s with
  | c :: t => if c = close then some ([], t) else readSeq one close (s.length + 1) s
  | [] => none

end

section
variable (value : List Char → Option (Json × List Char))

def readElement (s : List Char) : Option (Json × List Char) :=
  (value (skipWs s)).map fun r => (r.1, skipWs r.2)

def readMember (s : List Char) : Option ((String × Json) × List Char) :=
  match skipWs s with
  | c :: t =>
    if c = '\x22' then
      match readString t with
      | some (cs, u) =>
        match skipWs u with
        | d :: w =>
          if d = ':' then (readElement value w).map fun r => ((String.ofList cs, r.1), r.2) else none
        | [] => none
      | none => none
    else none
  | [] => none

end

def keyword (word : List Char) (v : Json) (s : List Char) : Option (Json × List Char) :=
  if s.take word.length = word then some (v, s.drop word.length) else none

def readValue (F : FloatText) : Nat → List Char → Option (Json × List Char)
  | 0, _ => none
  | _ + 1, [] => none
  | n + 1, c :: s =>
    if c = '\x22' then (readString s).map fun r => (.str (String.ofList r.1), r.2)
    else if c = '[' then (readBody (readElement (readValue F n)) ']' s).map fun r => (.list r.1, r.2)
    else if c = '\x7b' then (readBody (readMember (readValue F n)) '\x7d' s).map fun r => (.dict r.1, r.2)
    else if c = 'n' then keyword ['u', 'l', 'l'] .null s
    else if c = 't' then keyword ['r', 'u', 'e'] (.bool true) s
    else if c = 'f' then keyword ['a', 'l', 's', 'e'] (.bool false) s
    else (readLiteral (c :: s)).map fun r => (r.1.value F, r.2)

def read (F : FloatText) (s : List Char) : Option Json :=
  match readElement (readValue F (s.length + 1)) s with
  | some (v, []) => some v
  | _ => none

-- ---------------------------------------------------------------------------
-- What is read is derived
-- ---------------------------------------------------------------------------

theorem ws_skipWs (s : List Char) : Ws s (skipWs s) := by
  induction s with
  | nil => exact .refl
  | cons c s ih =>
    unfold skipWs
    rw [List.dropWhile_cons]
    split
    · rename_i hc
      exact .skip hc ih
    · exact .refl

theorem readMinus_text (s : List Char) : signText (readMinus s).1 ++ (readMinus s).2 = s := by
  unfold readMinus
  split <;> rfl

theorem readFrac_text (s : List Char) : fracText (readFrac s).1 ++ (readFrac s).2 = s := by
  unfold readFrac
  split
  · simp [fracText]
  · rfl

theorem readSign_text (s : List Char) : (readSign s).1 ++ (readSign s).2 = s := by
  unfold readSign
  split <;> rfl

theorem readExp_text (s : List Char) : expText (readExp s).1 ++ (readExp s).2 = s := by
  cases s with
  | nil => rfl
  | cons c s =>
    by_cases hc : c = 'e' ∨ c = 'E'
    · simp [readExp, hc, expText, readSign_text]
    · simp [readExp, hc, expText]

theorem readLiteral_sound (h : readLiteral s = some (lit, r)) : s = lit.text ++ r := by
  simp only [readLiteral] at h
  split at h
  · simp only [Option.some.injEq, Prod.mk.injEq] at h
    obtain ⟨rfl, rfl⟩ := h
    simp only [Literal.text, List.append_assoc, readExp_text, readFrac_text, List.takeWhile_append_dropWhile,
      readMinus_text]
  · cases h

theorem readChars_sound (h : readChars n s = some (cs, r)) : StringAt cs s r := by
  induction n generalizing s cs with
  | zero => cases h
  | succ n ih =>
    unfold readChars at h
    split at h
    · rename_i hquote
      cases s with
      | nil => cases hquote
      | cons c s =>
        obtain rfl : c = '\x22' := by simpa using hquote
        cases h
        exact .close
    · split at h
      · rename_i c t hc
        obtain ⟨⟨cs', r'⟩, hcs, heq⟩ := Option.map_eq_some_iff.mp h
        cases heq
        exact .char hc (ih hcs)
      · cases h

section
variable {one : List Char → Option (α × List Char)} {close : Char}
  {P : α → List Char → List Char → Prop} {Q : List α → List Char → List Char → Prop}

theorem readSeq_sound (hone : ∀ {s a r}, one s = some (a, r) → P a s r)
    (hlast : ∀ {s a r}, P a s r → Q [a] s r)
    (hmore : ∀ {s a t as r}, P a s (',' :: t) → Q as t r → Q (a :: as) s r)
    (h : readSeq one close n s = some (as, r)) : Q as s (close :: r) := by
  induction n generalizing s as with
  | zero => cases h
  | succ n ih =>
    unfold readSeq at h
    split at h
    · rename_i a c t ha
      split at h
      · rename_i hc
        cases h
        exact hlast (hc ▸ hone ha)
      · split at h
        · rename_i hc
          obtain ⟨⟨as', r'⟩, has, heq⟩ := Option.map_eq_some_iff.mp h
          cases heq
          exact hmore (hc ▸ hone ha) (ih has)
        · cases h
    · cases h

theorem readBody_sound (hone : ∀ {s a r}, one s = some (a, r) → P a s r)
    (hlast : ∀ {s a r}, P a s r → Q [a] s r)
    (hmore : ∀ {s a t as r}, P a s (',' :: t) → Q as t r → Q (a :: as) s r)
    (h : readBody one close s = some (as, r)) : as = [] ∧ Ws s (close :: r) ∨ Q as s (close :: r) := by
  unfold readBody at h
  split at h
  · rename_i c t hskip
    split at h
    · rename_i hc
      cases h
      exact .inl ⟨rfl, hc ▸ hskip ▸ ws_skipWs s⟩
    · exact .inr (readSeq_sound hone hlast hmore h)
  · cases h

end

section
variable {F : FloatText} {value : List Char → Option (Json × List Char)}

theorem readElement_sound (hvalue : ∀ {s v r}, value s = some (v, r) → Derives F (.value v) s r)
    (h : readElement value s = some (v, r)) : Derives F (.element v) s r := by
  obtain ⟨⟨v', u⟩, hv, heq⟩ := Option.map_eq_some_iff.mp h
  cases heq
  exact .element (ws_skipWs s) (hvalue hv) (ws_skipWs u)

theorem readMember_sound (hvalue : ∀ {s v r}, value s = some (v, r) → Derives F (.value v) s r)
    (h : readMember value s = some (kv, r)) : Derives F (.member kv) s r := by
  unfold readMember at h
  split at h
  · rename_i c t hskip
    split at h
    · rename_i hc
      subst hc
      split at h
      · rename_i cs u hkey
        split at h
        · rename_i d w hskip'
          split at h
          · rename_i hd
            subst hd
            obtain ⟨⟨v, r'⟩, hv, heq⟩ := Option.map_eq_some_iff.mp h
            cases heq
            exact .member (hskip ▸ ws_skipWs s) (readChars_sound hkey) (hskip' ▸ ws_skipWs u)
              (readElement_sound hvalue hv)
          · cases h
        · cases h
      · cases h
    · cases h
  · cases h

theorem keyword_sound (h : keyword word v s = some (v', r)) : v' = v ∧ s = word ++ r := by
  unfold keyword at h
  split at h
  · rename_i htake
    cases h
    have hs := List.take_append_drop word.length s
    rw [htake] at hs
    exact ⟨rfl, hs.symm⟩
  · cases h

theorem readValue_sound (h : readValue F n s = some (v, r)) : Derives F (.value v) s r := by
  induction n generalizing s v r with
  | zero => cases h
  | succ n ih =>
    cases s with
    | nil => cases h
    | cons c s =>
      unfold readValue at h
      split at h
      · rename_i hc
        obtain ⟨⟨cs, r'⟩, hcs, heq⟩ := Option.map_eq_some_iff.mp h
        cases heq
        exact hc ▸ .string (readChars_sound hcs)
      split at h
      · rename_i hc
        obtain ⟨⟨vs, r'⟩, hvs, heq⟩ := Option.map_eq_some_iff.mp h
        cases heq
        rcases readBody_sound (P := fun v => Derives F (.element v)) (Q := fun vs => Derives F (.elements vs))
          (readElement_sound ih) .lastElement .elements hvs with ⟨rfl, hws⟩ | helements
        · exact hc ▸ .emptyArray hws
        · exact hc ▸ .array helements
      split at h
      · rename_i hc
        obtain ⟨⟨kvs, r'⟩, hkvs, heq⟩ := Option.map_eq_some_iff.mp h
        cases heq
        rcases readBody_sound (P := fun kv => Derives F (.member kv)) (Q := fun kvs => Derives F (.members kvs))
          (readMember_sound ih) .lastMember .members hkvs with ⟨rfl, hws⟩ | hmembers
        · exact hc ▸ .emptyObject hws
        · exact hc ▸ .object hmembers
      split at h
      · rename_i hc
        obtain ⟨rfl, rfl⟩ := keyword_sound h
        exact hc ▸ .null
      split at h
      · rename_i hc
        obtain ⟨rfl, rfl⟩ := keyword_sound h
        exact hc ▸ .true
      split at h
      · rename_i hc
        obtain ⟨rfl, rfl⟩ := keyword_sound h
        exact hc ▸ .false
      · obtain ⟨⟨lit, r'⟩, hlit, heq⟩ := Option.map_eq_some_iff.mp h
        cases heq
        rw [readLiteral_sound hlit]
        exact .number lit

end

-- ---------------------------------------------------------------------------
-- What is derived is read
-- ---------------------------------------------------------------------------

def Stops (r : List Char) : Prop := ∀ c ∈ r.head?, c.isDigit = false ∧ c ≠ '.' ∧ c ≠ 'e' ∧ c ≠ 'E'

def NoDigit (r : List Char) : Prop := ∀ c ∈ r.head?, c.isDigit = false

theorem span_digits {ds r : List Char} (hds : ∀ c ∈ ds, c.isDigit = true) (hr : NoDigit r) :
    (ds ++ r).takeWhile Char.isDigit = ds ∧ (ds ++ r).dropWhile Char.isDigit = r := by
  induction ds with
  | nil =>
    cases r with
    | nil => exact ⟨rfl, rfl⟩
    | cons c r => simp [hr c rfl]
  | cons d ds ih =>
    obtain ⟨htake, hdrop⟩ := ih fun c hc => hds c (List.mem_cons_of_mem d hc)
    simp [hds d List.mem_cons_self, htake, hdrop]

theorem readMinus_complete (minus : Bool) (hint : Digits int) (t : List Char) :
    readMinus (signText minus ++ (int ++ t)) = (minus, int ++ t) := by
  cases minus with
  | true => rfl
  | false =>
    cases int with
    | nil => exact absurd rfl hint.1
    | cons d ds =>
      have hd : d ≠ '-' := by
        rintro rfl
        exact absurd (hint.2 '-' List.mem_cons_self) (by decide)
      unfold readMinus
      split
      · rename_i heq
        cases heq
        exact absurd rfl hd
      · rfl

theorem readFrac_complete (hfrac : ∀ ds ∈ frac, Digits ds) (hr : NoDigit r) (hdot : ∀ c ∈ r.head?, c ≠ '.') :
    readFrac (fracText frac ++ r) = (frac, r) := by
  cases frac with
  | some ds =>
    obtain ⟨htake, hdrop⟩ := span_digits (hfrac ds rfl).2 hr
    simp [readFrac, fracText, htake, hdrop]
  | none =>
    unfold readFrac
    split
    · rename_i heq
      exact absurd rfl (hdot '.' (by simp [show r = _ from heq]))
    · rfl

theorem readSign_complete (hsign : sign = [] ∨ sign = ['+'] ∨ sign = ['-']) (hds : Digits ds) (r : List Char) :
    readSign (sign ++ (ds ++ r)) = (sign, ds ++ r) := by
  rcases hsign with rfl | rfl | rfl
  · cases ds with
    | nil => exact absurd rfl hds.1
    | cons d ds =>
      have hd := hds.2 d List.mem_cons_self
      unfold readSign
      split
      · rename_i heq
        cases heq
        exact absurd hd (by decide)
      · rename_i heq
        cases heq
        exact absurd hd (by decide)
      · rfl
  · rfl
  · rfl

theorem readExp_complete (hexp : ∀ e ∈ exp, Exponent.Valid e) (hr : Stops r) :
    readExp (expText exp ++ r) = (exp, r) := by
  cases exp with
  | some e =>
    obtain ⟨hmark, hsign, hds⟩ := hexp e rfl
    obtain ⟨htake, hdrop⟩ := span_digits hds.2 fun c hc => (hr c hc).1
    simp [readExp, expText, hmark, readSign_complete hsign hds, htake, hdrop]
  | none =>
    cases r with
    | nil => rfl
    | cons c r =>
      obtain ⟨-, -, he, hE⟩ := hr c rfl
      simp [readExp, expText, he, hE]

theorem head_expText (hexp : ∀ e ∈ exp, Exponent.Valid e) (hr : Stops r) :
    ∀ c ∈ (expText exp ++ r).head?, c.isDigit = false ∧ c ≠ '.' := by
  cases exp with
  | some e =>
    rintro c ⟨⟩
    rcases (hexp e rfl).1 with h | h <;> rw [h] <;> decide
  | none => exact fun c hc => ⟨(hr c hc).1, (hr c hc).2.1⟩

theorem readLiteral_complete (lit : Literal) (hr : Stops r) : readLiteral (lit.text ++ r) = some (lit, r) := by
  have hexp := head_expText lit.exp_valid hr
  have hnodigit : NoDigit (fracText lit.frac ++ (expText lit.exp ++ r)) := by
    cases hfrac : lit.frac with
    | some ds =>
      rintro c ⟨⟩
      rfl
    | none => exact fun c hc => (hexp c hc).1
  obtain ⟨htake, hdrop⟩ := span_digits lit.int_digits.2 hnodigit
  have hvalid : Digits lit.int ∧ (lit.int.head? = some '0' → lit.int = ['0']) ∧
      (∀ ds ∈ lit.frac, Digits ds) ∧ ∀ e ∈ lit.exp, e.Valid :=
    ⟨lit.int_digits, lit.int_zero, lit.frac_digits, lit.exp_valid⟩
  simp only [readLiteral, Literal.text, List.append_assoc, readMinus_complete lit.minus lit.int_digits, htake,
    hdrop, readFrac_complete lit.frac_digits (fun c hc => (hexp c hc).1) fun c hc => (hexp c hc).2,
    readExp_complete lit.exp_valid hr, dif_pos hvalid]

theorem readHex_length (h : readHex s = some (n, r)) : r.length < s.length := by
  unfold readHex at h
  split at h
  · simp only [Option.bind_eq_bind, Option.bind_eq_some_iff, Option.pure_def, Option.some.injEq,
      Prod.mk.injEq] at h
    obtain ⟨_, -, _, -, _, -, _, -, -, rfl⟩ := h
    simp only [List.length_cons]
    omega
  · cases h

theorem readLow_length (h : readLow high s = some (c, r)) : r.length < s.length := by
  unfold readLow at h
  split at h
  · simp only [Option.bind_eq_bind, Option.bind_eq_some_iff] at h
    obtain ⟨⟨low, r'⟩, hhex, h⟩ := h
    split at h
    · simp only [Option.some.injEq, Prod.mk.injEq] at h
      have hlt := readHex_length hhex
      simp only [List.length_cons, ← h.2]
      omega
    · cases h
  · cases h

theorem readUnicode_length (h : readUnicode s = some (c, r)) : r.length < s.length := by
  simp only [readUnicode, Option.bind_eq_bind, Option.bind_eq_some_iff] at h
  obtain ⟨⟨n, r'⟩, hhex, h⟩ := h
  have hlt := readHex_length hhex
  split at h
  · exact Nat.lt_trans (readLow_length h) hlt
  split at h <;> cases h
  exact hlt

theorem readEscape_length (h : readEscape s = some (c, r)) : r.length < s.length := by
  cases s with
  | nil => cases h
  | cons d s =>
    simp only [readEscape] at h
    split at h
    · exact Nat.lt_succ_of_lt (readUnicode_length h)
    · obtain ⟨_, -, heq⟩ := Option.map_eq_some_iff.mp h
      cases heq
      exact Nat.lt_succ_self _

theorem readChar_length (h : readChar s = some (c, r)) : r.length < s.length := by
  cases s with
  | nil => cases h
  | cons d s =>
    simp only [readChar] at h
    split at h
    · exact Nat.lt_succ_of_lt (readEscape_length h)
    split at h <;> cases h
    exact Nat.lt_succ_self _

theorem StringAt.length_lt (h : StringAt cs s r) : r.length < s.length := by
  induction h with
  | close => simp
  | char hc _ ih => exact Nat.lt_trans ih (readChar_length hc)

theorem readChar_quote (s : List Char) : readChar ('\x22' :: s) = none := by
  simp [readChar]

theorem readChars_complete (h : StringAt cs s r) (hn : s.length < n) : readChars n s = some (cs, r) := by
  induction h generalizing n with
  | close =>
    cases n with
    | zero => omega
    | succ n => simp [readChars]
  | @char s c t cs r hc ht ih =>
    cases n with
    | zero => omega
    | succ n =>
      have hlt := readChar_length hc
      have hquote : s.head? ≠ some '\x22' := by
        intro hhead
        cases s with
        | nil => cases hhead
        | cons d s =>
          obtain rfl : d = '\x22' := by simpa using hhead
          rw [readChar_quote] at hc
          cases hc
      simp only [readChars, if_neg hquote, hc]
      rw [ih (by omega)]
      rfl

theorem readString_complete (h : StringAt cs s r) : readString s = some (cs, r) :=
  readChars_complete h (Nat.lt_succ_self _)

theorem Ws.length_le (h : Ws s r) : r.length ≤ s.length := by
  induction h with
  | refl => exact Nat.le_refl _
  | skip _ _ ih => exact Nat.le_succ_of_le ih

def NoBlank (r : List Char) : Prop := ∀ c ∈ r.head?, isBlank c = false

theorem skipWs_noBlank (hr : NoBlank r) : skipWs r = r := by
  cases r with
  | nil => rfl
  | cons c r => simp [skipWs, hr c rfl]

/-- However much whitespace a derivation has taken, the reader takes all there is. -/
theorem skipWs_complete (h : Ws s r) (hr : NoBlank r) : skipWs s = r := by
  induction h with
  | refl => exact skipWs_noBlank hr
  | skip hc _ ih =>
    rw [← ih hr]
    simp [skipWs, hc]

def Ends (r : List Char) : Prop := ∀ c ∈ r.head?, c = ',' ∨ c = ']' ∨ c = '\x7d'

theorem Ends.noBlank (h : Ends r) : NoBlank r := by
  intro c hc
  rcases h c hc with rfl | rfl | rfl <;> decide

theorem Ends.stops (h : Ends r) : Stops r := by
  intro c hc
  rcases h c hc with rfl | rfl | rfl <;> decide

theorem stops_of_ws (h : Ws s r) (hr : Ends r) : Stops s := by
  cases h with
  | refl => exact hr.stops
  | @skip c _ _ hc =>
    rintro d ⟨⟩
    simp only [isBlank, decide_eq_true_eq] at hc
    rcases hc with rfl | rfl | rfl | rfl <;> decide

section
variable {F : FloatText}

theorem head_literal (lit : Literal) (r : List Char) :
    ∃ c t, lit.text ++ r = c :: t ∧ (c = '-' ∨ c.isDigit = true) := by
  cases hint : lit.int with
  | nil => exact absurd hint lit.int_digits.1
  | cons d ds =>
    have hd := lit.int_digits.2 d (by simp [hint])
    cases hminus : lit.minus with
    | true => exact ⟨'-', _, by simp [Literal.text, signText, hminus]; rfl, .inl rfl⟩
    | false => exact ⟨d, _, by simp [Literal.text, signText, hminus, hint]; rfl, .inr hd⟩

theorem head_value (h : Derives F (.value v) s r) :
    ∃ c t, s = c :: t ∧ isBlank c = false ∧ c ≠ ']' := by
  generalize hphrase : Phrase.value v = phrase at h
  cases h with
  | number lit =>
    obtain ⟨c, t, heq, hc⟩ := head_literal lit r
    refine ⟨c, t, heq, ?_⟩
    rcases hc with rfl | hdigit
    · decide
    · constructor
      · cases hblank : isBlank c with
        | false => rfl
        | true =>
          simp only [isBlank, decide_eq_true_eq] at hblank
          rcases hblank with rfl | rfl | rfl | rfl <;> exact absurd hdigit (by decide)
      · rintro rfl
        exact absurd hdigit (by decide)
  | null | true | false | string | emptyArray | array | emptyObject | object =>
    exact ⟨_, _, rfl, by decide, by decide⟩
  | _ => cases hphrase

theorem Derives.length_le (h : Derives F phrase s r) : r.length ≤ s.length := by
  induction h with
  | number lit => simp
  | string h =>
    have hlt := h.length_lt
    simp only [List.length_cons]
    omega
  | emptyArray h | emptyObject h =>
    have hle := h.length_le
    simp only [List.length_cons] at hle ⊢
    omega
  | element hb _ ha ih =>
    have hle := hb.length_le
    have hle' := ha.length_le
    omega
  | member hb hk ha _ ih =>
    have hle := hb.length_le
    have hlt := hk.length_lt
    have hle' := ha.length_le
    simp only [List.length_cons] at hle hle'
    omega
  | lastElement _ ih | lastMember _ ih => exact ih
  | _ =>
    simp only [List.length_cons] at *
    omega

def Reads (F : FloatText) : Phrase → List Char → List Char → Prop
  | .value v, s, r => Stops r → ∀ n, s.length < n → readValue F n s = some (v, r)
  | .element v, s, r => Ends r → ∀ n, s.length < n → readElement (readValue F n) s = some (v, r)
  | .elements vs, s, r => ∀ t, r = ']' :: t → ∀ n m, s.length < n → s.length < m →
      readSeq (readElement (readValue F n)) ']' m s = some (vs, t)
  | .member kv, s, r => Ends r → ∀ n, s.length < n → readMember (readValue F n) s = some (kv, r)
  | .members kvs, s, r => ∀ t, r = '\x7d' :: t → ∀ n m, s.length < n → s.length < m →
      readSeq (readMember (readValue F n)) '\x7d' m s = some (kvs, t)

theorem skipWs_of_ws_value (hb : Ws s t) (h : Derives F (.value v) t u) : skipWs s = t := by
  obtain ⟨c, t', rfl, hblank, -⟩ := head_value h
  apply skipWs_complete hb
  rintro _ ⟨⟩
  exact hblank

theorem head_elements (h : Derives F (.elements vs) s r) : ∃ c t, skipWs s = c :: t ∧ c ≠ ']' := by
  have helement {v r} (h : Derives F (.element v) s r) : ∃ c t, skipWs s = c :: t ∧ c ≠ ']' := by
    cases h with
    | element hb hv =>
      rw [skipWs_of_ws_value hb hv]
      obtain ⟨c, t, heq, -, hc⟩ := head_value hv
      exact ⟨c, t, heq, hc⟩
  cases h with
  | lastElement h => exact helement h
  | elements h => exact helement h

theorem head_members (h : Derives F (.members kvs) s r) : ∃ t, skipWs s = '\x22' :: t := by
  have hmember {kv r} (h : Derives F (.member kv) s r) : ∃ t, skipWs s = '\x22' :: t := by
    cases h with
    | member hb =>
      refine ⟨_, skipWs_complete hb ?_⟩
      rintro _ ⟨⟩
      decide
  cases h with
  | lastMember h => exact hmember h
  | members h => exact hmember h

theorem readBody_of_seq {one : List Char → Option (α × List Char)} (hskip : skipWs s = c :: t)
    (hc : c ≠ close) (h : readSeq one close (s.length + 1) s = some (as, r)) :
    readBody one close s = some (as, r) := by
  simp only [readBody, hskip, if_neg hc, h]

theorem readBody_of_empty {one : List Char → Option (α × List Char)} (h : Ws s (close :: r))
    (hclose : isBlank close = false) : readBody one close s = some ([], r) := by
  have hskip : skipWs s = close :: r := by
    apply skipWs_complete h
    rintro _ ⟨⟩
    exact hclose
  simp [readBody, hskip]

theorem readValue_literal (hr : Stops r) (lit : Literal) :
    readValue F (n + 1) (lit.text ++ r) = some (lit.value F, r) := by
  have hread := readLiteral_complete lit hr
  obtain ⟨c, t, heq, hc⟩ := head_literal lit r
  rw [heq] at hread ⊢
  have hne (d : Char) (hd : d ≠ '-' ∧ d.isDigit = false) : c ≠ d := by
    rintro rfl
    rcases hc with h | h
    · exact hd.1 h
    · simp [hd.2] at h
  simp only [readValue, if_neg (hne '\x22' (by decide)), if_neg (hne '[' (by decide)),
    if_neg (hne '\x7b' (by decide)), if_neg (hne 'n' (by decide)), if_neg (hne 't' (by decide)),
    if_neg (hne 'f' (by decide)), hread, Option.map_some]

theorem ends_comma (t : List Char) : Ends (',' :: t) := by
  rintro c ⟨⟩
  exact .inl rfl

theorem readSeq_last {one : List Char → Option (α × List Char)} (h : one s = some (a, close :: r)) :
    readSeq one close (m + 1) s = some ([a], r) := by
  simp [readSeq, h]

theorem readSeq_more {one : List Char → Option (α × List Char)} (hclose : close ≠ ',')
    (h : one s = some (a, ',' :: t)) (ht : readSeq one close m t = some (as, r)) :
    readSeq one close (m + 1) s = some (a :: as, r) := by
  simp [readSeq, h, ht, hclose.symm]

/-- By induction on the derivation; the fuel bounds the length of the text. -/
theorem reads_of_derives (h : Derives F phrase s r) : Reads F phrase s r := by
  induction h with
  | null | true | false =>
    rintro hr (_ | n) hn
    · omega
    · rfl
  | number lit =>
    rintro hr (_ | n) hn
    · omega
    · exact readValue_literal hr lit
  | string hcs =>
    rintro hr (_ | n) hn
    · omega
    · simp [readValue, readString_complete hcs]
  | emptyArray hws =>
    rintro hr (_ | n) hn
    · omega
    · simp [readValue, readBody_of_empty hws (by decide)]
  | array h ih =>
    rintro hr (_ | n) hn
    · omega
    · obtain ⟨c, t, hskip, hc⟩ := head_elements h
      have hseq := ih _ rfl n _ (Nat.lt_of_succ_lt_succ hn) (Nat.lt_succ_self _)
      simp [readValue, readBody_of_seq hskip hc hseq]
  | emptyObject hws =>
    rintro hr (_ | n) hn
    · omega
    · simp [readValue, readBody_of_empty hws (by decide)]
  | object h ih =>
    rintro hr (_ | n) hn
    · omega
    · obtain ⟨t, hskip⟩ := head_members h
      have hseq := ih _ rfl n _ (Nat.lt_of_succ_lt_succ hn) (Nat.lt_succ_self _)
      simp [readValue, readBody_of_seq hskip (by decide) hseq]
  | element hb h ha ih =>
    intro hr n hn
    have hvalue := ih (stops_of_ws ha hr) n (Nat.lt_of_le_of_lt hb.length_le hn)
    simp [readElement, skipWs_of_ws_value hb h, hvalue, skipWs_complete ha hr.noBlank]
  | lastElement h ih =>
    rintro t rfl n (_ | m) hn hm
    · omega
    · exact readSeq_last (ih (by rintro c ⟨⟩; simp) n hn)
  | elements h ht ih iht =>
    rintro t rfl n (_ | m) hn hm
    · omega
    · have hle := h.length_le
      simp only [List.length_cons] at hle
      exact readSeq_more (by decide) (ih (ends_comma _) n hn) (iht _ rfl n m (by omega) (by omega))
  | member hb hk ha h ih =>
    intro hr n hn
    have hkey : skipWs _ = '\x22' :: _ := skipWs_complete hb (by rintro c ⟨⟩; decide)
    have hcolon : skipWs _ = ':' :: _ := skipWs_complete ha (by rintro c ⟨⟩; decide)
    have hle := hb.length_le
    have hlt := hk.length_lt
    have hle' := ha.length_le
    simp only [List.length_cons] at hle hle'
    have hvalue := ih hr n (by omega)
    simp [readMember, hkey, readString_complete hk, hcolon, hvalue]
  | lastMember h ih =>
    rintro t rfl n (_ | m) hn hm
    · omega
    · exact readSeq_last (ih (by rintro c ⟨⟩; simp) n hn)
  | members h ht ih iht =>
    rintro t rfl n (_ | m) hn hm
    · omega
    · have hle := h.length_le
      simp only [List.length_cons] at hle
      exact readSeq_more (by decide) (ih (ends_comma _) n hn) (iht _ rfl n m (by omega) (by omega))

/-- The reader accepts the texts of the grammar, with the values they denote. -/
theorem read_eq_some_iff {s : List Char} : read F s = some v ↔ Derives F (.element v) s [] := by
  constructor
  · intro h
    unfold read at h
    split at h
    · rename_i v' hv
      cases h
      exact readElement_sound readValue_sound hv
    · cases h
  · intro h
    have hv := reads_of_derives h (by rintro c ⟨⟩) (s.length + 1) (Nat.lt_succ_self _)
    simp [read, hv]

theorem denotes_iff {text : String} : Denotes F text v ↔ read F text.toList = some v :=
  read_eq_some_iff.symm

theorem Denotes.unique {text : String} (h : Denotes F text v) (h' : Denotes F text v') : v = v' := by
  rw [denotes_iff] at h h'
  exact Option.some.inj (h.symm.trans h')

end

end Python.JsonText
