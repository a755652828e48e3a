import LlmWorker.Python.Numeral

/-!
# `json.dumps` of any value

`json.dumps(value, default=str)` of a value that may hold more than JSON has.
The encoder converts the keys of a dictionary, writes `str` of what it does not
know, and raises on any other key, on a container inside itself, on an integer
of too many digits, on an object whose `str` raises, and when the stack is used
up.
-/

namespace Python.Encoder

open JsonText

/-- A key of a dictionary. One that the encoder refuses is known by the name of
its type, as the error gives it. -/
inductive DictKey
  | none
  | bool (b : Bool)
  | int (i : Int)
  | float (x : Float)
  | str (s : String)
  | other (typeName : String)
  deriving DecidableEq

inductive Frame
  | list
  | dict
  | object

/-- A value. An object that is none of the others is known by what `str` makes of
it; `cycle` is a container that is being written already. -/
inductive Value
  | none
  | bool (b : Bool)
  | int (i : Int)
  | float (x : Float)
  | str (s : String)
  | list (items : List Value)
  | dict (items : List (DictKey × Value))
  | object (text : Result String)
  | cycle (frame : Frame)

/-- The message of the `RecursionError` raised for the innermost of the frames,
when the stack has no room for it. -/
abbrev Stack := List Frame → Option String

/-- `_Py_EnterRecursiveCall(" while encoding a JSON object")` -/
def enter (stack : Stack) (frames : List Frame) : Result Unit :=
  match stack frames with
  | .none => .ok ()
  | some text => .error ⟨.recursionError, text⟩

def digitsError : Exc :=
  valueError ("Exceeds the limit (4300 digits) for integer string conversion; " ++
    "use sys.set_int_max_str_digits() to increase the limit")

/-- `int.__repr__` raises on an integer of more digits. -/
def Printable (i : Int) : Prop := (Nat.toDigits 10 i.natAbs).length ≤ intMaxStrDigits

instance (i : Int) : Decidable (Printable i) := inferInstanceAs (Decidable (_ ≤ _))

section
variable (F : FloatText)

def DictKey.text : DictKey → Result String
  | .none => .ok "null"
  | .bool true => .ok "true"
  | .bool false => .ok "false"
  | .int i => do
    raiseIf (¬Printable i) digitsError
    return String.ofList (intText i)
  | .float x => .ok (String.ofList (floatText F x))
  | .str s => .ok s
  | .other typeName => .error (typeError ("keys must be str, int, float, bool or None, not " ++ typeName))

variable (stack : Stack)

mutual
/-- What is written for a value inside the frames, the innermost one first. -/
def encode (frames : List Frame) : Value → Result Json
  | .none => .ok .null
  | .bool b => .ok (.bool b)
  | .int i => do
    raiseIf (¬Printable i) digitsError
    return .int i
  | .float x => .ok (.float x)
  | .str s => .ok (.str s)
  | .list items => do
    enter stack (.list :: frames)
    return .list (← encodeItems (.list :: frames) items)
  | .dict items => do
    enter stack (.dict :: frames)
    return .dict (← encodePairs (.dict :: frames) items)
  | .object text => do
    -- `default` is called before the encoder calls itself on what it returns.
    let text ← text
    enter stack (.object :: frames)
    return .str text
  | .cycle frame => do
    enter stack (frame :: frames)
    .error (valueError "Circular reference detected")
def encodeItems (frames : List Frame) : List Value → Result (List Json)
  | [] => .ok []
  | v :: rest => do return (← encode frames v) :: (← encodeItems frames rest)
def encodePairs (frames : List Frame) : List (DictKey × Value) → Result (List (String × Json))
  | [] => .ok []
  | (k, v) :: rest => do return (← k.text F, ← encode frames v) :: (← encodePairs frames rest)
end

end

-- ---------------------------------------------------------------------------
-- What can be written
-- ---------------------------------------------------------------------------

def DictKey.Writable : DictKey → Prop
  | .int i => Printable i
  | .other _ => False
  | _ => True

inductive Value.Writable (stack : Stack) : List Frame → Value → Prop
  | none : Writable stack frames .none
  | bool : Writable stack frames (.bool b)
  | int (h : Printable i) : Writable stack frames (.int i)
  | float : Writable stack frames (.float x)
  | str : Writable stack frames (.str s)
  | list (hroom : stack (.list :: frames) = .none) (h : ∀ v ∈ items, Writable stack (.list :: frames) v) :
      Writable stack frames (.list items)
  | dict (hroom : stack (.dict :: frames) = .none) (hkeys : ∀ kv ∈ items, kv.1.Writable)
      (h : ∀ kv ∈ items, Writable stack (.dict :: frames) kv.2) : Writable stack frames (.dict items)
  | object (hroom : stack (.object :: frames) = .none) : Writable stack frames (.object (.ok text))

def DictKey.toString (F : FloatText) : DictKey → String
  | .none => "null"
  | .bool b => if b then "true" else "false"
  | .int i => String.ofList (intText i)
  | .float x => String.ofList (floatText F x)
  | .str s | .other s => s

-- The JSON value that stands for a value. What is not writable has none, and `null` stands in.
mutual
def Value.toJson (F : FloatText) : Value → Json
  | .none | .cycle _ | .object (.error _) => .null
  | .bool b => .bool b
  | .int i => .int i
  | .float x => .float x
  | .str s | .object (.ok s) => .str s
  | .list items => .list (Value.items F items)
  | .dict items => .dict (Value.pairs F items)
def Value.items (F : FloatText) : List Value → List Json
  | [] => []
  | v :: rest => v.toJson F :: Value.items F rest
def Value.pairs (F : FloatText) : List (DictKey × Value) → List (String × Json)
  | [] => []
  | (k, v) :: rest => (k.toString F, v.toJson F) :: Value.pairs F rest
end

section
variable {F : FloatText} {stack : Stack}

theorem pairs_eq (items : List (DictKey × Value)) :
    Value.pairs F items = items.map fun kv => (kv.1.toString F, kv.2.toJson F) := by
  induction items with
  | nil => rfl
  | cons kv rest ih => rw [Value.pairs, ih, List.map_cons]

theorem enter_ok : enter stack frames = .ok u ↔ stack frames = .none := by
  unfold enter
  cases stack frames <;> simp

theorem printable_ok {x y : α} : (do raiseIf (¬Printable i) digitsError; return x : Result α) = .ok y ↔
    Printable i ∧ y = x := by
  simp only [bind_ok, raiseIf_ok, pure_ok, not_not, exists_const]
  exact and_congr_right fun _ => eq_comm

theorem DictKey.text_ok_iff {k : DictKey} : k.text F = .ok s ↔ k.Writable ∧ s = k.toString F := by
  cases k with
  | bool b => cases b <;> simp [text, Writable, toString, eq_comm]
  | int i => exact printable_ok
  | _ => simp [text, Writable, toString, eq_comm]

theorem writable_list : (Value.list items).Writable stack frames ↔
    stack (.list :: frames) = .none ∧ ∀ v ∈ items, v.Writable stack (.list :: frames) :=
  ⟨fun h => by cases h; exact ⟨‹_›, ‹_›⟩, fun h => .list h.1 h.2⟩

theorem writable_dict : (Value.dict items).Writable stack frames ↔ stack (.dict :: frames) = .none ∧
    ∀ kv ∈ items, kv.1.Writable ∧ kv.2.Writable stack (.dict :: frames) := by
  constructor
  · intro h
    cases h with
    | dict hroom hkeys h => exact ⟨hroom, fun kv hkv => ⟨hkeys kv hkv, h kv hkv⟩⟩
  · rintro ⟨hroom, h⟩
    exact .dict hroom (fun kv hkv => (h kv hkv).1) fun kv hkv => (h kv hkv).2

theorem writable_object : (Value.object text).Writable stack frames ↔
    stack (.object :: frames) = .none ∧ ∃ s, text = .ok s := by
  constructor
  · intro h
    cases h with
    | object hroom => exact ⟨hroom, _, rfl⟩
  · rintro ⟨hroom, s, rfl⟩
    exact .object hroom

mutual
/-- The encoder returns exactly on what is writable, and then writes the JSON
value that stands for it. -/
theorem encode_ok_iff (frames : List Frame) (v : Value) :
    encode F stack frames v = .ok j ↔ v.Writable stack frames ∧ j = v.toJson F := by
  cases v with
  | none | bool | float | str =>
    simp only [encode, Value.toJson, Except.ok.injEq]
    exact ⟨fun h => ⟨by constructor, h.symm⟩, fun h => h.2.symm⟩
  | int i =>
    rw [encode, printable_ok, Value.toJson]
    exact and_congr_left fun _ => ⟨.int, fun h => by cases h; assumption⟩
  | list items =>
    simp only [encode, Value.toJson, bind_ok, pure_ok, enter_ok, exists_const, encodeItems_ok_iff, writable_list]
    constructor
    · rintro ⟨hroom, _, ⟨h, rfl⟩, rfl⟩
      exact ⟨⟨hroom, h⟩, rfl⟩
    · rintro ⟨⟨hroom, h⟩, rfl⟩
      exact ⟨hroom, _, ⟨h, rfl⟩, rfl⟩
  | dict items =>
    simp only [encode, Value.toJson, bind_ok, pure_ok, enter_ok, exists_const, encodePairs_ok_iff, writable_dict]
    constructor
    · rintro ⟨hroom, _, ⟨h, rfl⟩, rfl⟩
      exact ⟨⟨hroom, h⟩, rfl⟩
    · rintro ⟨⟨hroom, h⟩, rfl⟩
      exact ⟨hroom, _, ⟨h, rfl⟩, rfl⟩
  | object text =>
    simp only [encode, bind_ok, pure_ok, enter_ok, exists_const, writable_object]
    constructor
    · rintro ⟨s, rfl, hroom, rfl⟩
      exact ⟨⟨hroom, s, rfl⟩, rfl⟩
    · rintro ⟨⟨hroom, s, rfl⟩, rfl⟩
      exact ⟨s, rfl, hroom, rfl⟩
  | cycle frame =>
    have hcycle : ¬(Value.cycle frame).Writable stack frames := by rintro ⟨⟩
    simp [encode, bind_ok, hcycle]
theorem encodeItems_ok_iff (frames : List Frame) (items : List Value) :
    encodeItems F stack frames items = .ok js ↔ (∀ v ∈ items, v.Writable stack frames) ∧ js = Value.items F items := by
  cases items with
  | nil => simp [encodeItems, Value.items, eq_comm]
  | cons v rest =>
    simp only [encodeItems, Value.items, bind_ok, pure_ok, encode_ok_iff, encodeItems_ok_iff, List.forall_mem_cons]
    constructor
    · rintro ⟨_, ⟨hv, rfl⟩, _, ⟨hrest, rfl⟩, rfl⟩
      exact ⟨⟨hv, hrest⟩, rfl⟩
    · rintro ⟨⟨hv, hrest⟩, rfl⟩
      exact ⟨_, ⟨hv, rfl⟩, _, ⟨hrest, rfl⟩, rfl⟩
theorem encodePairs_ok_iff (frames : List Frame) (items : List (DictKey × Value)) :
    encodePairs F stack frames items = .ok js ↔
      (∀ kv ∈ items, kv.1.Writable ∧ kv.2.Writable stack frames) ∧ js = Value.pairs F items := by
  cases items with
  | nil => simp [encodePairs, Value.pairs, eq_comm]
  | cons kv rest =>
    obtain ⟨k, v⟩ := kv
    simp only [encodePairs, Value.pairs, bind_ok, pure_ok, DictKey.text_ok_iff, encode_ok_iff, encodePairs_ok_iff,
      List.forall_mem_cons]
    constructor
    · rintro ⟨_, ⟨hk, rfl⟩, _, ⟨hv, rfl⟩, _, ⟨hrest, rfl⟩, rfl⟩
      exact ⟨⟨⟨hk, hv⟩, hrest⟩, rfl⟩
    · rintro ⟨⟨⟨hk, hv⟩, hrest⟩, rfl⟩
      exact ⟨_, ⟨hk, rfl⟩, _, ⟨hv, rfl⟩, _, ⟨hrest, rfl⟩, rfl⟩
end

end

end Python.Encoder
