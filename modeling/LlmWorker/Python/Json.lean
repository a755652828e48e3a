import Mathlib.Algebra.Ring.Rat
import Mathlib.Data.List.Forall2
import Mathlib.Data.List.Infix

/-!
# Python values that JSON can hold

The values `json.loads` returns, and the operations of Python the worker
applies to them without knowing their type: truthiness, `.get`, `in`,
subscription and iteration. Each raises the exception Python raises when the
value has the wrong type.
-/

namespace Python

/-- The finite values of a 64-bit float, as multiples of the smallest of them. -/
def IsDouble (x : Rat) : Prop :=
  ∃ (m : Int) (k : Nat), m.natAbs < 2 ^ 53 ∧ k ≤ 2045 ∧ x * 2 ^ 1074 = m * 2 ^ k

theorem isDouble_intCast {m : Int} (h : m.natAbs < 2 ^ 53) : IsDouble m :=
  ⟨m, 1074, h, by decide, rfl⟩

/-- A Python float: a finite value, or one of those that compare or print apart. -/
inductive Float
  | finite (value : Rat) (h : IsDouble value)
  | negZero
  | inf
  | negInf
  | nan
  deriving DecidableEq

/-- The float of a small integer. -/
def Float.ofInt (m : Int) (h : m.natAbs < 2 ^ 53 := by decide) : Float := .finite m (isDouble_intCast h)

theorem natAbs_zero_lt : (0 : Int).natAbs < 2 ^ 53 := by decide

inductive Json
  | null
  | bool (b : Bool)
  | int (i : Int)
  | float (x : Float)
  | str (s : String)
  | list (items : List Json)
  | dict (items : List (String × Json))

mutual
def Json.decEq : (a b : Json) → Decidable (a = b)
  | .null, .null => isTrue rfl
  | .bool a, .bool b => decidable_of_iff (a = b) (by simp)
  | .int a, .int b => decidable_of_iff (a = b) (by simp)
  | .float a, .float b => decidable_of_iff (a = b) (by simp)
  | .str a, .str b => decidable_of_iff (a = b) (by simp)
  | .list a, .list b =>
    have := Json.decEqList a b
    decidable_of_iff (a = b) (by simp)
  | .dict a, .dict b =>
    have := Json.decEqItems a b
    decidable_of_iff (a = b) (by simp)
  | .null, .bool _ | .null, .int _ | .null, .float _ | .null, .str _ | .null, .list _
  | .null, .dict _ | .bool _, .null | .bool _, .int _ | .bool _, .float _ | .bool _, .str _
  | .bool _, .list _ | .bool _, .dict _ | .int _, .null | .int _, .bool _ | .int _, .float _
  | .int _, .str _ | .int _, .list _ | .int _, .dict _ | .float _, .null | .float _, .bool _
  | .float _, .int _ | .float _, .str _ | .float _, .list _ | .float _, .dict _ | .str _, .null
  | .str _, .bool _ | .str _, .int _ | .str _, .float _ | .str _, .list _ | .str _, .dict _
  | .list _, .null | .list _, .bool _ | .list _, .int _ | .list _, .float _ | .list _, .str _
  | .list _, .dict _ | .dict _, .null | .dict _, .bool _ | .dict _, .int _ | .dict _, .float _
  | .dict _, .str _ | .dict _, .list _ => isFalse (by simp)
def Json.decEqList : (a b : List Json) → Decidable (a = b)
  | [], [] => isTrue rfl
  | [], _ :: _ | _ :: _, [] => isFalse (by simp)
  | a :: as, b :: bs =>
    have := Json.decEq a b
    have := Json.decEqList as bs
    decidable_of_iff (a = b ∧ as = bs) (by simp)
def Json.decEqItems : (a b : List (String × Json)) → Decidable (a = b)
  | [], [] => isTrue rfl
  | [], _ :: _ | _ :: _, [] => isFalse (by simp)
  | (k, a) :: as, (l, b) :: bs =>
    have := Json.decEq a b
    have := Json.decEqItems as bs
    decidable_of_iff ((k = l ∧ a = b) ∧ as = bs) (by simp)
end

instance : DecidableEq Json := Json.decEq

@[elab_as_elim]
theorem Json.induction {P : Json → Prop} (null : P .null) (bool : ∀ b, P (.bool b)) (int : ∀ i, P (.int i))
    (float : ∀ x, P (.float x)) (str : ∀ s, P (.str s))
    (list : ∀ items, (∀ v ∈ items, P v) → P (.list items))
    (dict : ∀ items, (∀ kv ∈ items, P kv.2) → P (.dict items)) (v : Json) : P v :=
  @Json.rec P (fun items => ∀ v ∈ items, P v) (fun items => ∀ kv ∈ items, P kv.2) (fun kv => P kv.2)
    null bool int float str list dict (by simp)
    (fun _ _ hv hvs => List.forall_mem_cons.mpr ⟨hv, hvs⟩) (by simp)
    (fun _ _ hkv hkvs => List.forall_mem_cons.mpr ⟨hkv, hkvs⟩) (fun _ _ hv => hv) v

-- ---------------------------------------------------------------------------
-- Exceptions
-- ---------------------------------------------------------------------------

/-- The exception classes the code tells apart. `clientError` is botocore's,
with the `Code` and `Message` of its `Error` dict; `anthropic` classes are
those of the Messages API client. -/
inductive ExcType
  | jsonDecodeError | valueError | keyError | typeError | attributeError | recursionError
  | clientError (code message : Option String)
  | endpointConnectionError | connectTimeoutError | readTimeoutError | connectionClosedError
  | rateLimitError | apiConnectionError | apiTimeoutError | internalServerError
  | authenticationError | permissionDeniedError | badRequestError
  | clickHouseError
  | other (name : String)
  deriving DecidableEq

structure Exc where
  type : ExcType
  text : String
  deriving DecidableEq

/-- A subclass of `ValueError`: `ValueError` itself or `json.JSONDecodeError`. -/
def Exc.isValueError (e : Exc) : Bool :=
  match e.type with
  | .jsonDecodeError | .valueError => true
  | _ => false

abbrev Result := Except Exc

instance [DecidableEq α] : DecidableEq (Result α)
  | .ok a, .ok b => decidable_of_iff (a = b) (by simp)
  | .error a, .error b => decidable_of_iff (a = b) (by simp)
  | .ok _, .error _ | .error _, .ok _ => isFalse (by simp)

def valueError (text : String) : Exc := ⟨.valueError, text⟩
def typeError (text : String) : Exc := ⟨.typeError, text⟩

/-- `if c: raise e` -/
def raiseIf (c : Prop) [Decidable c] (e : Exc) : Result Unit :=
  if c then .error e else .ok ()

theorem bind_ok {x : Except ε α} {f : α → Except ε β} :
    x >>= f = .ok b ↔ ∃ a, x = .ok a ∧ f a = .ok b := by
  cases x <;> simp [bind, Except.bind]

theorem bind_error {x : Except ε α} {f : α → Except ε β} :
    x >>= f = .error e ↔ x = .error e ∨ ∃ a, x = .ok a ∧ f a = .error e := by
  cases x <;> simp [bind, Except.bind]

theorem pure_ok : (pure a : Except ε α) = .ok b ↔ a = b := by
  simp [pure, Except.pure]

@[simp] theorem ok_bind (a : α) (f : α → Except ε β) : (Except.ok a >>= f : Except ε β) = f a := rfl

@[simp] theorem error_bind (e : ε) (f : α → Except ε β) :
    (Except.error e >>= f : Except ε β) = .error e := rfl

@[simp] theorem pure_eq_ok (a : α) : (pure a : Result α) = .ok a := rfl

theorem mapM_ok {f : α → Except ε β} {l : List α} : l.mapM f = .ok bs ↔ List.Forall₂ (fun a b => f a = .ok b) l bs := by
  induction l generalizing bs with
  | nil =>
    rw [List.mapM_nil, pure_ok, List.forall₂_nil_left_iff]
    exact eq_comm
  | cons a l ih =>
    rw [List.mapM_cons, List.forall₂_cons_left_iff]
    simp only [bind_ok, ih, pure_ok]
    constructor
    · rintro ⟨b, hb, bs', hbs, rfl⟩
      exact ⟨b, bs', hb, hbs, rfl⟩
    · rintro ⟨b, bs', hb, hbs, rfl⟩
      exact ⟨b, hb, bs', hbs, rfl⟩

theorem mapM_error {f : α → Except ε β} {l : List α} (h : l.mapM f = .error e) : ∃ a ∈ l, f a = .error e := by
  induction l with
  | nil => cases h
  | cons a l ih =>
    rw [List.mapM_cons] at h
    rcases bind_error.mp h with ha | ⟨b, -, hrest⟩
    · exact ⟨a, by simp, ha⟩
    · rcases bind_error.mp hrest with hrest | ⟨bs, -, hpure⟩
      · obtain ⟨a', ha', he⟩ := ih hrest
        exact ⟨a', List.mem_cons_of_mem _ ha', he⟩
      · cases hpure

theorem raiseIf_ok {c : Prop} [Decidable c] : raiseIf c e = .ok u ↔ ¬c := by
  by_cases h : c <;> simp [raiseIf, h]

def RaisesOnly (P : Exc → Prop) (x : Result α) : Prop := ∀ e, x = .error e → P e

namespace RaisesOnly

variable {P : Exc → Prop}

theorem ok (a : α) : RaisesOnly P (.ok a) := by simp [RaisesOnly]

theorem error (h : P e) : RaisesOnly P (.error e : Result α) := by
  simpa [RaisesOnly] using h

theorem raiseIf {c : Prop} [Decidable c] (h : P e) : RaisesOnly P (raiseIf c e) := by
  by_cases hc : c <;> simp [Python.raiseIf, RaisesOnly, hc, h]

theorem bind {x : Result α} {f : α → Result β} (hx : RaisesOnly P x)
    (hf : ∀ a, RaisesOnly P (f a)) : RaisesOnly P (x >>= f) := by
  intro e he
  rcases bind_error.mp he with h | ⟨a, -, h⟩
  · exact hx e h
  · exact hf a e h

theorem mapM {f : α → Result β} (hf : ∀ a, RaisesOnly P (f a)) (l : List α) :
    RaisesOnly P (l.mapM f) := by
  induction l with
  | nil => exact ok _
  | cons a rest ih =>
    rw [List.mapM_cons]
    exact bind (hf a) fun _ => bind ih fun _ => ok _

end RaisesOnly

-- ---------------------------------------------------------------------------
-- Operations on a value of unknown type
-- ---------------------------------------------------------------------------

namespace Json

/-- `type(value).__name__` -/
def typeName : Json → String
  | .null => "NoneType"
  | .bool _ => "bool"
  | .int _ => "int"
  | .float _ => "float"
  | .str _ => "str"
  | .list _ => "list"
  | .dict _ => "dict"

/-- `bool(value)` -/
def truthy : Json → Bool
  | .null => false
  | .bool b => b
  | .int i => i ≠ 0
  | .float x => x ≠ .ofInt 0 ∧ x ≠ .negZero
  | .str s => s ≠ ""
  | .list items => items ≠ []
  | .dict items => items ≠ []

/-- The value under a key of a dict, which has each key once. -/
def lookup (key : String) : List (String × Json) → Option Json
  | [] => none
  | (k, v) :: rest => if k = key then some v else lookup key rest

def attributeError (value : Json) (name : String) : Exc :=
  ⟨.attributeError, "'" ++ value.typeName ++ "' object has no attribute '" ++ name ++ "'"⟩

/-- `value.get(key, default)`: only a dict has the method. -/
def getD (value : Json) (key : String) (default : Json) : Result Json :=
  match value with
  | .dict items => .ok ((lookup key items).getD default)
  | value => .error (attributeError value "get")

/-- `value.get(key)` -/
def get (value : Json) (key : String) : Result Json := value.getD key .null

/-- `key in value`: a key of a dict, an item of a list, a part of a string. -/
def contains (value : Json) (key : String) : Result Bool :=
  match value with
  | .dict items => .ok (lookup key items).isSome
  | .list items => .ok (decide (.str key ∈ items))
  | .str s => .ok (decide (key.toList <:+: s.toList))
  | value => .error (typeError ("argument of type '" ++ value.typeName ++
      "' is not a container or iterable"))

/-- `value[key]` for a string key. -/
def item (value : Json) (key : String) : Result Json :=
  match value with
  | .dict items => match lookup key items with
    | some v => .ok v
    | none => .error ⟨.keyError, "'" ++ key ++ "'"⟩
  | .list _ => .error (typeError "list indices must be integers or slices, not str")
  | .str _ => .error (typeError "string indices must be integers, not 'str'")
  | value => .error (typeError ("'" ++ value.typeName ++ "' object is not subscriptable"))

/-- `for x in value`: a dict gives its keys, a string its characters. -/
def iter (value : Json) : Result (List Json) :=
  match value with
  | .list items => .ok items
  | .dict items => .ok (items.map fun kv => .str kv.1)
  | .str s => .ok (s.toList.map fun c => .str (String.ofList [c]))
  | value => .error (typeError ("'" ++ value.typeName ++ "' object is not iterable"))

/-- `isinstance(value, dict)` -/
def isDict : Json → Bool
  | .dict _ => true
  | _ => false

/-- `isinstance(value, str)` -/
def isStr : Json → Bool
  | .str _ => true
  | _ => false

/-- The items a dict gains from `if v is there: d[key] = v`. -/
def entry (key : String) : Option Json → List (String × Json)
  | some v => [(key, v)]
  | none => []

/-- `if d: … = d` for a dict `d`. -/
def dictIf (items : List (String × Json)) : Option Json :=
  if items ≠ [] then some (.dict items) else none

/-- `value[k₁][k₂]…`, when every key is there. -/
def at? (value : Json) : List String → Option Json
  | [] => some value
  | key :: path =>
    match value with
    | .dict items => (lookup key items).bind fun v => v.at? path
    | _ => none

/-- A `KeyError`, `TypeError`, `AttributeError` or plain `ValueError`. -/
def Malformed (e : Exc) : Prop :=
  e.type = .keyError ∨ e.type = .typeError ∨ e.type = .attributeError ∨ e.type = .valueError

theorem getD_raises (value : Json) (key : String) (d : Json) :
    RaisesOnly Malformed (value.getD key d) := by
  cases value <;> simp [RaisesOnly, getD, attributeError, Malformed]

theorem get_raises (value : Json) (key : String) : RaisesOnly Malformed (value.get key) :=
  getD_raises value key .null

theorem contains_raises (value : Json) (key : String) :
    RaisesOnly Malformed (value.contains key) := by
  cases value <;> simp [RaisesOnly, contains, typeError, Malformed]

theorem item_raises (value : Json) (key : String) : RaisesOnly Malformed (value.item key) := by
  cases value with
  | dict items => cases h : lookup key items <;> simp [RaisesOnly, item, h, Malformed]
  | _ => simp [RaisesOnly, item, typeError, Malformed]

theorem iter_raises (value : Json) : RaisesOnly Malformed value.iter := by
  cases value <;> simp [RaisesOnly, iter, typeError, Malformed]

@[simp] theorem getD_dict (items : List (String × Json)) (key : String) (d : Json) :
    (Json.dict items).getD key d = .ok ((lookup key items).getD d) := rfl
@[simp] theorem get_dict (items : List (String × Json)) (key : String) :
    (Json.dict items).get key = .ok ((lookup key items).getD .null) := rfl
@[simp] theorem contains_dict (items : List (String × Json)) (key : String) :
    (Json.dict items).contains key = .ok (lookup key items).isSome := rfl
@[simp] theorem iter_list (items : List Json) : (Json.list items).iter = .ok items := rfl
@[simp] theorem isDict_dict (items : List (String × Json)) : (Json.dict items).isDict = true := rfl
@[simp] theorem at?_nil (value : Json) : value.at? [] = some value := rfl
@[simp] theorem at?_dict (items : List (String × Json)) (key : String) (path : List String) :
    (Json.dict items).at? (key :: path) = (lookup key items).bind fun v => v.at? path := rfl
@[simp] theorem lookup_nil (key : String) : lookup key [] = none := rfl

theorem lookup_cons (key k : String) (v : Json) (rest : List (String × Json)) :
    lookup key ((k, v) :: rest) = if k = key then some v else lookup key rest := rfl

theorem lookup_cons_ne {key k : String} (h : k ≠ key) (v : Json) (rest : List (String × Json)) :
    lookup key ((k, v) :: rest) = lookup key rest := by
  rw [lookup_cons, if_neg h]

@[simp] theorem lookup_cons_self (key : String) (v : Json) (rest : List (String × Json)) :
    lookup key ((key, v) :: rest) = some v := by simp [lookup]

theorem lookup_append (key : String) (a b : List (String × Json)) :
    lookup key (a ++ b) = (lookup key a).or (lookup key b) := by
  induction a with
  | nil => simp
  | cons kv rest ih =>
    obtain ⟨k, v⟩ := kv
    by_cases hk : k = key
    · simp [lookup, hk]
    · simp [lookup, hk, ih]

@[simp] theorem lookup_entry (key k : String) (v : Option Json) :
    lookup key (entry k v) = if k = key then v else none := by
  cases v <;> by_cases hk : k = key <;> simp [entry, lookup, hk]

@[simp] theorem entry_eq_nil {key : String} {v : Option Json} : entry key v = [] ↔ v = none := by
  cases v <;> simp [entry]

theorem at?_dictIf (items : List (String × Json)) (key : String) (path : List String) :
    ((dictIf items).bind fun v => v.at? (key :: path)) = (lookup key items).bind fun v => v.at? path := by
  cases items <;> simp [dictIf]

end Json

end Python
