import LlmWorker.Contract
import LlmWorker.Python.Encoder

/-!
# Log lines

`logging_setup.py`: each record is one line, a JSON object. The fields that the
caller passes as `extra` are attributes of the record beside those that the
logging module sets, and the formatter nests them under `mcd`. What the
formatter raises stays in the handler, a `RecursionError` apart.
-/

namespace LlmWorker.Logging

open Python JsonText Encoder

def stdlibLogrecordAttrs : List DictKey :=
  ["args", "asctime", "created", "exc_info", "exc_text", "filename", "funcName", "levelname", "levelno", "lineno",
    "message", "module", "msecs", "msg", "name", "pathname", "process", "processName", "relativeCreated",
    "stack_info", "taskName", "thread", "threadName"].map .str

/-- A logging call: what the standard library makes of its level, logger,
message, time and exception, the other attributes it sets, `extra`, and the
stack it leaves to the encoder. -/
structure Call where
  time : String
  levelno : Int
  levelname : String
  name : String
  message : Result String
  exception : Option String
  attr : String → Value
  extra : List (DictKey × Value)
  extra_nodup : (extra.map (·.1)).Nodup
  stack : Stack

structure LogRecord where
  /-- `datetime.fromtimestamp(record.created, tz=timezone.utc).isoformat()` -/
  time : String
  levelname : String
  name : String
  /-- `record.getMessage()` -/
  message : Result String
  /-- `formatException(record.exc_info)`, when there is an exception -/
  exception : Option String
  /-- `record.__dict__` -/
  dict : List (DictKey × Value)

/-- The attributes that `LogRecord.__init__` sets. -/
def recordAttrs : List String :=
  ["name", "msg", "args", "levelname", "levelno", "pathname", "filename", "module", "exc_info", "exc_text",
    "stack_info", "lineno", "funcName", "created", "msecs", "relativeCreated", "thread", "threadName",
    "processName", "process", "taskName"]

def overwriteError (py : Stdlib) (key : String) : Exc :=
  ⟨.keyError, py.repr (.str ("Attempt to overwrite " ++ py.repr (.str key) ++ " in LogRecord"))⟩

/-- One turn of the loop over `extra` in `Logger.makeRecord`. -/
def addExtra (py : Stdlib) (dict : List (DictKey × Value)) : DictKey × Value → Result (List (DictKey × Value))
  | (.str key, value) => do
    raiseIf (key ∈ ["message", "asctime"] ∨ .str key ∈ dict.map (·.1)) (overwriteError py key)
    return dict ++ [(.str key, value)]
  -- The attributes are strings, and the keys of `extra` differ from each other.
  | kv => .ok (dict ++ [kv])

def makeRecord (py : Stdlib) (call : Call) : Result LogRecord := do
  let dict ← call.extra.foldlM (addExtra py) (recordAttrs.map fun name => (.str name, call.attr name))
  return ⟨call.time, call.levelname, call.name, call.message, call.exception, dict⟩

def payload (time levelname name message : String) (exception : Option String) (mcd : List (DictKey × Value)) : Value :=
  .dict ([(.str "ts", .str time), (.str "level", .str levelname), (.str "logger", .str name),
      (.str "msg", .str message)] ++
    (if mcd.isEmpty then [] else [(.str "mcd", .dict mcd)]) ++
    (exception.map fun text => (DictKey.str "exception", Value.str text)).toList)

section
variable (F : FloatText)

/-- `JSONFormatter.format` -/
def format (stack : Stack) (record : LogRecord) : Result (List Char) := do
  let message ← record.message
  let mcd := record.dict.filter fun kv => kv.1 ∉ stdlibLogrecordAttrs
  return dumps F (← encode F stack [] (payload record.time record.levelname record.name message record.exception mcd))

/-- What `StreamHandler.emit` writes to the standard output. -/
def emit (stack : Stack) (record : LogRecord) : Result (List Char) :=
  match format F stack record with
  | .ok line => .ok (line ++ ['\n'])
  -- `handleError` writes to the standard error.
  | .error e => if e.type = .recursionError then .error e else .ok []

/-- `Logger.isEnabledFor` under a root of this level; `manager.disable` is 0. -/
def isEnabledFor (level levelno : Int) : Prop := 0 < levelno ∧ level ≤ levelno

instance (level levelno : Int) : Decidable (isEnabledFor level levelno) := inferInstanceAs (Decidable (_ ∧ _))

/-- What a logging call writes, or raises, after `configure_logging(level)`. -/
def logCall (py : Stdlib) (level : Int) (call : Call) : Result (List Char) :=
  if isEnabledFor level call.levelno then do
    let record ← makeRecord py call
    emit F call.stack record
  else
    .ok []

/-- All that is written for some calls. A call that raises writes nothing. -/
def log (py : Stdlib) (level : Int) (calls : List Call) : List Char :=
  calls.flatMap fun call => match logCall F py level call with
    | .ok text => text
    | .error _ => []

end

-- ---------------------------------------------------------------------------
-- What becomes of extra
-- ---------------------------------------------------------------------------

def Call.Distinct (call : Call) : Prop := ∀ kv ∈ call.extra, kv.1 ∉ stdlibLogrecordAttrs

/-- The formatter leaves out exactly what `makeRecord` refuses. -/
theorem mem_stdlibLogrecordAttrs :
    .str key ∈ stdlibLogrecordAttrs ↔ key ∈ ["message", "asctime"] ∨ key ∈ recordAttrs := by
  have hperm : stdlibLogrecordAttrs.Perm ((["message", "asctime"] ++ recordAttrs).map .str) := by decide +kernel
  rw [hperm.mem_iff, List.mem_map_of_injective fun a b h => by cases h; rfl, List.mem_append]

theorem exists_of_mem_stdlibLogrecordAttrs (h : key ∈ stdlibLogrecordAttrs) : ∃ s, key = .str s := by
  obtain ⟨s, -, rfl⟩ := List.mem_map.mp h
  exact ⟨s, rfl⟩

section
variable {py : Stdlib} {call : Call} {dict extra : List (DictKey × Value)}

theorem addExtra_ok (hnodup : (extra.map (·.1)).Nodup)
    (h : ∀ kv ∈ extra, kv.1 ∉ [DictKey.str "message", .str "asctime"] ∧ kv.1 ∉ dict.map (·.1)) :
    extra.foldlM (addExtra py) dict = .ok (dict ++ extra) := by
  induction extra generalizing dict with
  | nil => simp [pure, Except.pure]
  | cons kv rest ih =>
    obtain ⟨hkv, hrest⟩ := List.forall_mem_cons.mp h
    obtain ⟨hnew, hnodup⟩ := List.nodup_cons.mp hnodup
    have hadd : addExtra py dict kv = .ok (dict ++ [kv]) := by
      obtain ⟨key, value⟩ := kv
      cases key with
      | str key =>
        obtain ⟨hreserved, hold⟩ := hkv
        simp only [List.mem_cons, DictKey.str.injEq, List.not_mem_nil, or_false] at hreserved
        simp [addExtra, raiseIf, hreserved, hold, bind, Except.bind, pure, Except.pure]
      | _ => rfl
    have hlater : ∀ kv' ∈ rest, kv'.1 ∉ [DictKey.str "message", .str "asctime"] ∧ kv'.1 ∉ (dict ++ [kv]).map (·.1) := by
      intro kv' hmem
      obtain ⟨hreserved, hold⟩ := hrest kv' hmem
      have hne : kv'.1 ≠ kv.1 := fun heq => hnew (List.mem_map.mpr ⟨kv', hmem, heq⟩)
      exact ⟨hreserved, by simpa [hne] using hold⟩
    rw [List.foldlM_cons, hadd]
    show rest.foldlM (addExtra py) (dict ++ [kv]) = _
    rw [ih hnodup hlater, List.append_assoc, List.singleton_append]

def Call.attrs (call : Call) : List (DictKey × Value) := recordAttrs.map fun name => (.str name, call.attr name)

theorem Call.mem_keys_attrs (call : Call) : key ∈ call.attrs.map (·.1) ↔ ∃ name ∈ recordAttrs, .str name = key := by
  rw [Call.attrs, List.map_map]
  exact List.mem_map

theorem Call.fresh (call : Call) (h : key ∉ stdlibLogrecordAttrs) :
    key ∉ [DictKey.str "message", .str "asctime"] ∧ key ∉ call.attrs.map (·.1) := by
  refine ⟨fun hreserved => h ?_, fun hattr => h ?_⟩
  · rcases List.mem_pair.mp hreserved with rfl | rfl <;> exact mem_stdlibLogrecordAttrs.mpr (.inl (by simp))
  · obtain ⟨name, hname, rfl⟩ := call.mem_keys_attrs.mp hattr
    exact mem_stdlibLogrecordAttrs.mpr (.inr hname)

def Call.record (call : Call) : LogRecord :=
  ⟨call.time, call.levelname, call.name, call.message, call.exception, call.attrs ++ call.extra⟩

theorem makeRecord_ok (h : call.Distinct) : makeRecord py call = .ok call.record := by
  have hadd : call.extra.foldlM (addExtra py) call.attrs = .ok (call.attrs ++ call.extra) :=
    addExtra_ok call.extra_nodup fun kv hkv => call.fresh (h kv hkv)
  show (call.extra.foldlM (addExtra py) call.attrs >>= _) = _
  rw [hadd]
  rfl

theorem makeRecord_error (h : call.extra.find? (fun kv => kv.1 ∈ stdlibLogrecordAttrs) = some kv) :
    ∃ key, kv.1 = .str key ∧ makeRecord py call = .error (overwriteError py key) := by
  obtain ⟨hkv, before, after, hsplit, hbefore⟩ := List.find?_eq_some_iff_append.mp h
  have hattr : kv.1 ∈ stdlibLogrecordAttrs := by simpa using hkv
  obtain ⟨key, hkey⟩ := exists_of_mem_stdlibLogrecordAttrs hattr
  have hnodup : (before.map (·.1)).Nodup := by
    have hall := call.extra_nodup
    rw [hsplit, List.map_append] at hall
    exact (List.nodup_append.mp hall).1
  have hadd : before.foldlM (addExtra py) call.attrs = .ok (call.attrs ++ before) :=
    addExtra_ok hnodup fun kv' hkv' => call.fresh (by simpa using hbefore kv' hkv')
  have hstop : addExtra py (call.attrs ++ before) kv = .error (overwriteError py key) := by
    have hold : key ∈ ["message", "asctime"] ∨ .str key ∈ (call.attrs ++ before).map (·.1) := by
      rw [List.map_append, List.mem_append, call.mem_keys_attrs]
      exact (mem_stdlibLogrecordAttrs.mp (hkey ▸ hattr)).imp_right fun hname => .inl ⟨key, hname, rfl⟩
    obtain ⟨_, value⟩ := kv
    obtain rfl := hkey
    rw [addExtra, raiseIf, if_pos hold]
    rfl
  refine ⟨key, hkey, ?_⟩
  show (call.extra.foldlM (addExtra py) call.attrs >>= _) = _
  rw [hsplit, List.foldlM_append, hadd]
  show (addExtra py (call.attrs ++ before) kv >>= _) >>= _ = _
  rw [hstop]
  rfl

-- ---------------------------------------------------------------------------
-- What a line says
-- ---------------------------------------------------------------------------

def Call.object (F : FloatText) (call : Call) (message : String) : Json :=
  .dict ([("ts", .str call.time), ("level", .str call.levelname), ("logger", .str call.name), ("msg", .str message)] ++
    Json.entry "mcd" (Json.dictIf (Value.pairs F call.extra)) ++ Json.entry "exception" (call.exception.map .str))

def Call.Finite (F : FloatText) (call : Call) : Prop := ∀ kv ∈ call.extra, (kv.2.toJson F).Finite

/-- The encoder writes all that the call logs. -/
structure Call.Writable (call : Call) : Prop where
  message : ∃ message, call.message = .ok message
  room : call.stack [.dict] = none
  extra : call.extra ≠ [] → (Value.dict call.extra).Writable call.stack [.dict]

theorem payload_toJson (F : FloatText) (call : Call) (message : String) :
    (payload call.time call.levelname call.name message call.exception call.extra).toJson F =
      call.object F message := by
  have hmcd : Value.pairs F (if call.extra.isEmpty then [] else [(.str "mcd", .dict call.extra)]) =
      Json.entry "mcd" (Json.dictIf (Value.pairs F call.extra)) := by
    cases call.extra with
    | nil => rfl
    | cons kv rest => simp [pairs_eq, Value.toJson, DictKey.toString, Json.dictIf, Json.entry]
  rw [pairs_eq] at hmcd
  rw [payload, Value.toJson, pairs_eq, List.map_append, List.map_append, hmcd, Call.object]
  cases call.exception <;> rfl

theorem payload_writable (call : Call) (message : String) :
    (payload call.time call.levelname call.name message call.exception call.extra).Writable call.stack [] ↔
      call.stack [.dict] = none ∧ (call.extra ≠ [] → (Value.dict call.extra).Writable call.stack [.dict]) := by
  have hstr (key text : String) : (DictKey.str key).Writable ∧ (Value.str text).Writable call.stack [.dict] :=
    ⟨trivial, .str⟩
  have hexception : ∀ kv ∈ (call.exception.map fun text => (DictKey.str "exception", Value.str text)).toList,
      kv.1.Writable ∧ kv.2.Writable call.stack [.dict] := by
    cases call.exception with
    | none => simp
    | some text => simpa using hstr "exception" text
  rw [payload, writable_dict, List.forall_mem_append, List.forall_mem_append]
  refine and_congr_right fun _ => ⟨fun h hne => ?_, fun h => ⟨⟨?_, ?_⟩, hexception⟩⟩
  · exact (h.1.2 (.str "mcd", .dict call.extra) (by simp [hne])).2
  · simpa using ⟨hstr "ts" call.time, hstr "level" call.levelname, hstr "logger" call.name, hstr "msg" message⟩
  · split
    · simp
    · rename_i hne
      simpa using ⟨trivial, h (by simpa using hne)⟩

theorem filter_record (h : call.Distinct) :
    (call.record.dict.filter fun kv => kv.1 ∉ stdlibLogrecordAttrs) = call.extra := by
  have hattrs : call.attrs.filter (fun kv => kv.1 ∉ stdlibLogrecordAttrs) = [] := by
    refine List.filter_eq_nil_iff.mpr fun kv hkv => ?_
    obtain ⟨name, hname, hkey⟩ := call.mem_keys_attrs.mp (List.mem_map_of_mem hkv)
    simpa [← hkey] using mem_stdlibLogrecordAttrs.mpr (.inr hname)
  have hextra : call.extra.filter (fun kv => kv.1 ∉ stdlibLogrecordAttrs) = call.extra :=
    List.filter_eq_self.mpr fun kv hkv => by simpa using h kv hkv
  rw [Call.record, List.filter_append, hattrs, hextra, List.nil_append]

/-- The formatter returns exactly when all can be written, and then returns the
text of the object of the call. -/
theorem format_ok_iff {F : FloatText} (h : call.Distinct) : format F call.stack call.record = .ok line ↔
    call.Writable ∧ ∃ message, call.message = .ok message ∧ line = dumps F (call.object F message) := by
  have hformat : format F call.stack call.record = .ok line ↔ ∃ message, call.message = .ok message ∧
      (call.stack [.dict] = none ∧ (call.extra ≠ [] → (Value.dict call.extra).Writable call.stack [.dict])) ∧
        line = dumps F (call.object F message) := by
    simp only [format, filter_record h, bind_ok, pure_ok]
    simp only [Call.record, encode_ok_iff, payload_writable, payload_toJson]
    constructor
    · rintro ⟨message, hmessage, _, ⟨hw, rfl⟩, rfl⟩
      exact ⟨message, hmessage, hw, rfl⟩
    · rintro ⟨message, hmessage, hw, rfl⟩
      exact ⟨message, hmessage, _, ⟨hw, rfl⟩, rfl⟩
  rw [hformat]
  constructor
  · rintro ⟨message, hmessage, ⟨hroom, hextra⟩, hline⟩
    exact ⟨⟨⟨message, hmessage⟩, hroom, hextra⟩, message, hmessage, hline⟩
  · rintro ⟨⟨-, hroom, hextra⟩, message, hmessage, hline⟩
    exact ⟨message, hmessage, ⟨hroom, hextra⟩, hline⟩

theorem Call.finite_object {F : FloatText} {message : String} : (call.object F message).Finite ↔ call.Finite F := by
  have hmcd : (∀ kv ∈ Json.entry "mcd" (Json.dictIf (Value.pairs F call.extra)), kv.2.Finite) ↔ call.Finite F := by
    have hpairs : (∀ kv ∈ Value.pairs F call.extra, kv.2.Finite) ↔ call.Finite F := by
      rw [pairs_eq, List.forall_mem_map]
      rfl
    rw [← hpairs]
    cases Value.pairs F call.extra with
    | nil => simp [Json.dictIf, Json.entry]
    | cons kv rest => simp [Json.dictIf, Json.entry, finite_dict]
  have hexception : ∀ kv ∈ Json.entry "exception" (call.exception.map .str), kv.2.Finite := by
    cases call.exception with
    | none => simp [Json.entry]
    | some text => simpa [Json.entry] using Json.Finite.str
  have hfixed : ∀ kv ∈ [("ts", Json.str call.time), ("level", .str call.levelname), ("logger", .str call.name),
      ("msg", .str message)], kv.2.Finite := by simp [Json.Finite.str]
  rw [Call.object, finite_dict, List.forall_mem_append, List.forall_mem_append, hmcd]
  exact ⟨fun h => h.1.2, fun h => ⟨⟨hfixed, h⟩, hexception⟩⟩

end

-- ---------------------------------------------------------------------------
-- The log
-- ---------------------------------------------------------------------------

structure Call.Logged (level : Int) (call : Call) : Prop where
  enabled : isEnabledFor level call.levelno
  distinct : call.Distinct
  writable : call.Writable

section
variable {F : FloatText} {py : Stdlib} {level : Int} {call : Call}

theorem logCall_disabled (h : ¬isEnabledFor level call.levelno) : logCall F py level call = .ok [] := if_neg h

-- A `DEBUG` call under the level `INFO` of `configure_logging()`.
example (h : call.levelno = 10) : logCall F py 20 call = .ok [] := logCall_disabled (by simp [isEnabledFor, h])

theorem logCall_overwrites (hlevel : isEnabledFor level call.levelno)
    (h : call.extra.find? (fun kv => kv.1 ∈ stdlibLogrecordAttrs) = some kv) :
    ∃ key, kv.1 = .str key ∧ logCall F py level call = .error (overwriteError py key) := by
  obtain ⟨key, hkey, hmake⟩ := @makeRecord_error py call kv h
  exact ⟨key, hkey, by rw [logCall, if_pos hlevel, hmake]; rfl⟩

/-- An error of the formatter is raised only when it is a `RecursionError`. -/
theorem logCall_unwritable (hlevel : isEnabledFor level call.levelno) (hdistinct : call.Distinct)
    (h : ¬call.Writable) : ∃ e, format F call.stack call.record = .error e ∧
      logCall F py level call = if e.type = .recursionError then .error e else .ok [] := by
  cases hformat : format F call.stack call.record with
  | ok line => exact absurd ((format_ok_iff hdistinct).mp hformat).1 h
  | error e =>
    refine ⟨e, rfl, ?_⟩
    rw [logCall, if_pos hlevel, makeRecord_ok hdistinct]
    show emit F call.stack call.record = _
    rw [emit, hformat]

def Call.line (F : FloatText) (call : Call) : List Char :=
  match call.message with
  | .ok message => dumps F (call.object F message)
  | .error _ => []

theorem logCall_logged (h : call.Logged level) : logCall F py level call = .ok (call.line F ++ ['\n']) := by
  obtain ⟨message, hmessage⟩ := h.writable.message
  have hformat := (format_ok_iff (F := F) h.distinct).mpr ⟨h.writable, message, hmessage, rfl⟩
  rw [logCall, if_pos h.enabled, makeRecord_ok h.distinct]
  show emit F call.stack call.record = _
  rw [emit, hformat, Call.line, hmessage]

theorem logCall_not_logged (h : ¬call.Logged level) :
    logCall F py level call = .ok [] ∨ ∃ e, logCall F py level call = .error e := by
  by_cases hlevel : isEnabledFor level call.levelno
  · cases hfind : call.extra.find? (fun kv => kv.1 ∈ stdlibLogrecordAttrs) with
    | some kv =>
      obtain ⟨key, -, hcall⟩ := @logCall_overwrites F py level call _ hlevel hfind
      exact .inr ⟨_, hcall⟩
    | none =>
      have hdistinct : call.Distinct := fun kv hkv => by simpa using List.find?_eq_none.mp hfind kv hkv
      have hwritable : ¬call.Writable := fun hw => h ⟨hlevel, hdistinct, hw⟩
      obtain ⟨e, -, hcall⟩ := @logCall_unwritable F py level call hlevel hdistinct hwritable
      split at hcall
      · exact .inr ⟨e, hcall⟩
      · exact .inl hcall
  · exact .inl (logCall_disabled hlevel)

open scoped Classical in
theorem log_eq (calls : List Call) : log F py level calls =
    ((calls.filter fun call => call.Logged level).map (Call.line F)).flatMap fun line => line ++ ['\n'] := by
  induction calls with
  | nil => rfl
  | cons call rest ih =>
    rw [log, List.flatMap_cons, ← log, ih]
    by_cases h : call.Logged level
    · rw [logCall_logged h, List.filter_cons_of_pos (by simpa using h)]
      rfl
    · rw [List.filter_cons_of_neg (by simpa using h)]
      rcases @logCall_not_logged F py level call h with hcall | ⟨e, hcall⟩ <;> rw [hcall] <;> rfl

end

end LlmWorker.Logging
