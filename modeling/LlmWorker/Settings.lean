import LlmWorker.Config
import LlmWorker.Python.Numeral

/-!
# The service configuration

`config.py`: the numbers of the configuration are read from the environment,
each with a default and a least value, one after the other. The first that is
rejected ends the start of the worker.
-/

namespace LlmWorker.Settings

open Python JsonText

structure ClickHouseConfig where
  host : String
  port : Int
  user : String
  password : String
  database : String
  caCert : String

structure ServiceConfig where
  clickhouse : ClickHouseConfig
  maxWorkers : Int
  retryMaxAttempts : Int
  retryMaxBackoff : Int
  pollInterval : Python.Float
  pendingBatchLimit : Int
  batchPageSize : Int

-- ---------------------------------------------------------------------------
-- One number
-- ---------------------------------------------------------------------------

/-- `_parse_env_int` or `_parse_env_float`: how a text is read, and the least value. -/
structure Kind (α : Type) where
  noun : String
  read : Str → Option α
  text : α → List Char
  isLow : α → Bool
  minVal : String

/-- `x < bound`. NaN is below nothing. -/
def below (x : Python.Float) (bound : Rat) : Bool :=
  match x with
  | .finite value _ => value < bound
  | .negZero => 0 < bound
  | .negInf => true
  | .inf | .nan => false

/-- The float `0.1`. -/
def tenth : Rat := 3602879701896397 / 36028797018963968

def intKind (D : Decimals) : Kind Int := ⟨"integer", intOfStr D, intText, fun value => value < 1, "1"⟩

def floatKind (D : Decimals) (F : FloatText) : Kind Python.Float :=
  ⟨"number", floatOfStr D F, floatRepr F, fun value => below value tenth, "0.1"⟩

section
variable (py : Stdlib) (D : Decimals) (F : FloatText) (environ : Environ)

def parseEnv (kind : Kind α) (name default : String) : Result α :=
  let raw := (environ name).getD default
  match kind.read raw.toList with
  | none => .error (valueError (name ++ ("=" ++ py.repr (.str raw) ++ " is not a valid " ++ kind.noun)))
  | some value => do
    raiseIf (kind.isLow value = true)
      (valueError (name ++ ("=" ++ String.ofList (kind.text value) ++ " must be >= " ++ kind.minVal)))
    return value

def parseEnvInt (name default : String) : Result Int := parseEnv py environ (intKind D) name default

def parseEnvFloat (name default : String) : Result Python.Float := parseEnv py environ (floatKind D F) name default

def loadConfig : Result ServiceConfig := do
  let port ← parseEnvInt py D environ "CH_PORT" "8123"
  let maxWorkers ← parseEnvInt py D environ "MAX_WORKERS" "20"
  let retryMaxAttempts ← parseEnvInt py D environ "RETRY_MAX_ATTEMPTS" "5"
  let retryMaxBackoff ← parseEnvInt py D environ "RETRY_MAX_BACKOFF" "30"
  let pollInterval ← parseEnvFloat py D F environ "POLL_INTERVAL" "10"
  let pendingBatchLimit ← parseEnvInt py D environ "PENDING_BATCH_LIMIT" "100"
  let batchPageSize ← parseEnvInt py D environ "BATCH_PAGE_SIZE" "100"
  let clickhouse : ClickHouseConfig := {
    host := (environ "CH_HOST").getD "localhost"
    port
    user := (environ "CH_USER").getD "default"
    password := (environ "CH_PASSWORD").getD ""
    database := (environ "CH_DATABASE").getD "default"
    caCert := (environ "CH_CA_CERT").getD "" }
  return { clickhouse, maxWorkers, retryMaxAttempts, retryMaxBackoff, pollInterval, pendingBatchLimit, batchPageSize }

end

/-- The text of the exception begins with the variable. -/
def Names (name : String) (e : Exc) : Prop := name.toList <+: e.text.toList

theorem names_valueError (name rest : String) : Names name (valueError (name ++ rest)) := by
  simp [Names, valueError, String.toList_append]

def Kind.ReadsBack (kind : Kind α) (value : α) : Prop :=
  kind.read (kind.text value) = some value ∧ kind.isLow value = false

section
variable {py : Stdlib} {D : Decimals} {F : FloatText} {environ : Environ} {kind : Kind α} {name default : String}

theorem parseEnv_ok {value : α} : parseEnv py environ kind name default = .ok value ↔
    kind.read ((environ name).getD default).toList = some value ∧ kind.isLow value = false := by
  cases hread : kind.read ((environ name).getD default).toList with
  | none => simp [parseEnv, hread]
  | some found =>
    simp only [parseEnv, hread, bind_ok, raiseIf_ok, pure_ok, Option.some.injEq, Bool.not_eq_true]
    constructor
    · rintro ⟨_, hlow, rfl⟩
      exact ⟨rfl, hlow⟩
    · rintro ⟨rfl, hlow⟩
      exact ⟨(), hlow, rfl⟩

theorem parseEnv_text {value : α} (hname : environ name = some (String.ofList (kind.text value)))
    (h : kind.ReadsBack value) (default : String) : parseEnv py environ kind name default = .ok value := by
  refine parseEnv_ok.mpr ⟨?_, h.2⟩
  rw [hname, Option.getD_some, String.toList_ofList]
  exact h.1

def Kind.Accepts (kind : Kind α) (default : String) (value : α) : Prop :=
  kind.read default.toList = some value ∧ kind.isLow value = false

theorem parseEnv_unset {value : α} (hunset : environ name = none) (h : kind.Accepts default value) :
    parseEnv py environ kind name default = .ok value := by
  refine parseEnv_ok.mpr ?_
  rwa [hunset, Option.getD_none]

/-- The variable was set to a text that does not pass the check, and the error names it. -/
structure Rejected (kind : Kind α) (environ : Environ) (name : String) (e : Exc) : Prop where
  set : ∃ raw, environ name = some raw ∧ ∀ value, kind.read raw.toList = some value → kind.isLow value = true
  names : Names name e

/-- What is rejected was set, as long as the default passes its own check. -/
theorem parseEnv_error {value : α} (hdefault : kind.Accepts default value)
    (h : parseEnv py environ kind name default = .error e) : Rejected kind environ name e := by
  cases hset : environ name with
  | none =>
    rw [parseEnv_unset hset hdefault] at h
    cases h
  | some raw =>
    simp only [parseEnv, hset, Option.getD_some] at h
    cases hread : kind.read raw.toList with
    | none =>
      simp only [hread] at h
      cases h
      exact ⟨⟨raw, hset, by simp [hread]⟩, names_valueError name _⟩
    | some found =>
      simp only [hread, raiseIf] at h
      split at h
      · rename_i hlow
        cases h
        exact ⟨⟨raw, hset, by simpa [hread] using hlow⟩, names_valueError name _⟩
      · cases h

-- ---------------------------------------------------------------------------
-- Which configurations can be read
-- ---------------------------------------------------------------------------

/-- A count that an environment can hold. -/
def Count (n : Int) : Prop := 1 ≤ n ∧ n.natAbs < 10 ^ intMaxStrDigits

theorem Count.readsBack (h : Count n) : (intKind D).ReadsBack n :=
  ⟨intOfStr_intText h.2, by simpa [intKind] using h.1⟩

theorem readsBack_float (h : below x tenth = false) : (floatKind D F).ReadsBack x := ⟨floatOfStr_repr x, h⟩

theorem count_of_parse (h : parseEnvInt py D environ name default = .ok n) : Count n := by
  obtain ⟨hread, hlow⟩ := parseEnv_ok.mp h
  have hmin : 1 ≤ n := by simpa [intKind] using hlow
  exact ⟨hmin, natAbs_intOfStr hread⟩

end

structure ServiceConfig.Valid (config : ServiceConfig) : Prop where
  port : Count config.clickhouse.port
  maxWorkers : Count config.maxWorkers
  retryMaxAttempts : Count config.retryMaxAttempts
  retryMaxBackoff : Count config.retryMaxBackoff
  pollInterval : below config.pollInterval tenth = false
  pendingBatchLimit : Count config.pendingBatchLimit
  batchPageSize : Count config.batchPageSize

def countText (n : Int) : String := String.ofList (intText n)

def ServiceConfig.entries (F : FloatText) (config : ServiceConfig) : List (String × String) :=
  [("CH_HOST", config.clickhouse.host), ("CH_PORT", countText config.clickhouse.port),
    ("CH_USER", config.clickhouse.user), ("CH_PASSWORD", config.clickhouse.password),
    ("CH_DATABASE", config.clickhouse.database), ("CH_CA_CERT", config.clickhouse.caCert),
    ("MAX_WORKERS", countText config.maxWorkers), ("RETRY_MAX_ATTEMPTS", countText config.retryMaxAttempts),
    ("RETRY_MAX_BACKOFF", countText config.retryMaxBackoff),
    ("POLL_INTERVAL", String.ofList (floatRepr F config.pollInterval)),
    ("PENDING_BATCH_LIMIT", countText config.pendingBatchLimit),
    ("BATCH_PAGE_SIZE", countText config.batchPageSize)]

def ServiceConfig.environ (F : FloatText) (config : ServiceConfig) : Environ := fun name =>
  (config.entries F).lookup name

theorem environ_texts (F : FloatText) (config : ServiceConfig) :
    config.environ F "CH_HOST" = some config.clickhouse.host ∧
    config.environ F "CH_USER" = some config.clickhouse.user ∧
    config.environ F "CH_PASSWORD" = some config.clickhouse.password ∧
    config.environ F "CH_DATABASE" = some config.clickhouse.database ∧
    config.environ F "CH_CA_CERT" = some config.clickhouse.caCert := by
  simp [ServiceConfig.environ, ServiceConfig.entries, List.lookup_cons]

theorem environ_numbers (F : FloatText) (config : ServiceConfig) :
    config.environ F "CH_PORT" = some (countText config.clickhouse.port) ∧
    config.environ F "MAX_WORKERS" = some (countText config.maxWorkers) ∧
    config.environ F "RETRY_MAX_ATTEMPTS" = some (countText config.retryMaxAttempts) ∧
    config.environ F "RETRY_MAX_BACKOFF" = some (countText config.retryMaxBackoff) ∧
    config.environ F "POLL_INTERVAL" = some (String.ofList (floatRepr F config.pollInterval)) ∧
    config.environ F "PENDING_BATCH_LIMIT" = some (countText config.pendingBatchLimit) ∧
    config.environ F "BATCH_PAGE_SIZE" = some (countText config.batchPageSize) := by
  simp [ServiceConfig.environ, ServiceConfig.entries, List.lookup_cons]

section
variable {py : Stdlib} {D : Decimals} {F : FloatText} {environ : Environ} {config : ServiceConfig}
  {name default : String}

theorem loadConfig_valid (h : loadConfig py D F environ = .ok config) : config.Valid := by
  simp only [loadConfig, bind_ok, pure_ok] at h
  obtain ⟨port, hport, maxWorkers, hworkers, attempts, hattempts, backoff, hbackoff, poll, hpoll, limit, hlimit, page,
    hpage, rfl⟩ := h
  exact ⟨count_of_parse hport, count_of_parse hworkers, count_of_parse hattempts, count_of_parse hbackoff,
    (parseEnv_ok.mp hpoll).2, count_of_parse hlimit, count_of_parse hpage⟩

theorem loadConfig_environ (h : config.Valid) : loadConfig py D F (config.environ F) = .ok config := by
  obtain ⟨hhost, huser, hpassword, hdatabase, hcert⟩ := environ_texts F config
  obtain ⟨hport, hworkers, hattempts, hbackoff, hpoll, hlimit, hpage⟩ := environ_numbers F config
  simp only [loadConfig, bind_ok, pure_ok]
  refine ⟨_, parseEnv_text hport h.port.readsBack _, _, parseEnv_text hworkers h.maxWorkers.readsBack _,
    _, parseEnv_text hattempts h.retryMaxAttempts.readsBack _, _, parseEnv_text hbackoff h.retryMaxBackoff.readsBack _,
    _, parseEnv_text hpoll (readsBack_float h.pollInterval) _,
    _, parseEnv_text hlimit h.pendingBatchLimit.readsBack _, _, parseEnv_text hpage h.batchPageSize.readsBack _, ?_⟩
  rw [hhost, huser, hpassword, hdatabase, hcert]
  rfl

/-- The configurations that can be read are exactly those whose counts are
positive and have no more digits than `int` reads, and whose poll interval is not
below a tenth. Each of them is read back from the texts of its own values. -/
theorem loadConfig_range (py : Stdlib) (D : Decimals) (F : FloatText) (config : ServiceConfig) :
    ((∃ environ, loadConfig py D F environ = .ok config) ↔ config.Valid) ∧
      (config.Valid → loadConfig py D F (config.environ F) = .ok config) :=
  ⟨⟨fun ⟨_, h⟩ => loadConfig_valid h, fun h => ⟨_, loadConfig_environ h⟩⟩, loadConfig_environ⟩

-- ---------------------------------------------------------------------------
-- What an error is about
-- ---------------------------------------------------------------------------

theorem accepts_int {n : Int} (hn : 1 ≤ n ∧ n.natAbs < 10 ^ 4) (hdefault : default.toList = intText n) :
    (intKind D).Accepts default n := by
  have hcount : Count n := ⟨hn.1, Nat.lt_of_lt_of_le hn.2 (Nat.pow_le_pow_right (by decide) (by decide))⟩
  obtain ⟨hread, hlow⟩ := @Count.readsBack D n hcount
  exact ⟨by rwa [hdefault], hlow⟩

theorem accepts_float (hF : F.Exact) {n : Int} (hn : 1 ≤ n ∧ n.natAbs < 2 ^ 53)
    (hdefault : default.toList = intText n) : (floatKind D F).Accepts default (.finite n (isDouble_intCast hn.2)) := by
  constructor
  · rw [hdefault]
    exact floatOfStr_intText hF hn.2 (by omega)
  · have hle : (1 : Rat) ≤ n := by exact_mod_cast hn.1
    have htenth : tenth < 1 := by decide +kernel
    simp only [floatKind, below, decide_eq_false_iff_not]
    grind

def defaults : ServiceConfig where
  clickhouse := {
    host := "localhost"
    port := 8123
    user := "default"
    password := ""
    database := "default"
    caCert := "" }
  maxWorkers := 20
  retryMaxAttempts := 5
  retryMaxBackoff := 30
  pollInterval := .ofInt 10
  pendingBatchLimit := 100
  batchPageSize := 100

theorem accepts_defaults (D : Decimals) (hF : F.Exact) :
    (intKind D).Accepts "8123" 8123 ∧ (intKind D).Accepts "20" 20 ∧ (intKind D).Accepts "5" 5 ∧
    (intKind D).Accepts "30" 30 ∧ (floatKind D F).Accepts "10" (.ofInt 10) ∧ (intKind D).Accepts "100" 100 :=
  ⟨accepts_int (by decide) (by decide +kernel), accepts_int (by decide) (by decide +kernel),
    accepts_int (by decide) (by decide +kernel), accepts_int (by decide) (by decide +kernel),
    accepts_float hF (by decide) (by decide +kernel), accepts_int (by decide) (by decide +kernel)⟩

theorem loadConfig_defaults (hF : F.Exact) (h : ∀ entry ∈ defaults.entries F, environ entry.1 = none) :
    loadConfig py D F environ = .ok defaults := by
  obtain ⟨hport, hworkers, hattempts, hbackoff, hpoll, hbatch⟩ := accepts_defaults D hF
  simp only [ServiceConfig.entries, List.forall_mem_cons] at h
  obtain ⟨hhost, hport', huser, hpassword, hdatabase, hcert, hworkers', hattempts', hbackoff', hpoll', hlimit', hpage',
    -⟩ := h
  simp only [loadConfig, bind_ok, pure_ok]
  refine ⟨_, parseEnv_unset hport' hport, _, parseEnv_unset hworkers' hworkers, _, parseEnv_unset hattempts' hattempts,
    _, parseEnv_unset hbackoff' hbackoff, _, parseEnv_unset hpoll' hpoll, _, parseEnv_unset hlimit' hbatch,
    _, parseEnv_unset hpage' hbatch, ?_⟩
  rw [hhost, huser, hpassword, hdatabase, hcert]
  rfl

def counts : List String :=
  ["CH_PORT", "MAX_WORKERS", "RETRY_MAX_ATTEMPTS", "RETRY_MAX_BACKOFF", "PENDING_BATCH_LIMIT", "BATCH_PAGE_SIZE"]

theorem loadConfig_error (hF : F.Exact) (h : loadConfig py D F environ = .error e) :
    (∃ name ∈ counts, Rejected (intKind D) environ name e) ∨ Rejected (floatKind D F) environ "POLL_INTERVAL" e := by
  obtain ⟨hport, hworkers, hattempts, hbackoff, hpoll, hbatch⟩ := accepts_defaults D hF
  simp only [loadConfig, bind_error] at h
  rcases h with h | ⟨_, -, h | ⟨_, -, h | ⟨_, -, h | ⟨_, -, h | ⟨_, -, h | ⟨_, -, h | ⟨_, -, h⟩⟩⟩⟩⟩⟩⟩
  · exact .inl ⟨_, by simp [counts], parseEnv_error hport h⟩
  · exact .inl ⟨_, by simp [counts], parseEnv_error hworkers h⟩
  · exact .inl ⟨_, by simp [counts], parseEnv_error hattempts h⟩
  · exact .inl ⟨_, by simp [counts], parseEnv_error hbackoff h⟩
  · exact .inr (parseEnv_error hpoll h)
  · exact .inl ⟨_, by simp [counts], parseEnv_error hbatch h⟩
  · exact .inl ⟨_, by simp [counts], parseEnv_error hbatch h⟩
  · cases h

end

end LlmWorker.Settings
