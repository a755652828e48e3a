import LlmWorker.Lib.Program
import LlmWorker.Providers.AnthropicMessages
import LlmWorker.Providers.Bedrock
import LlmWorker.Service.Batch
import LlmWorker.Service.WorkerInfo
import LlmWorker.Settings

/-!
# Starting a worker

The registry of `providers/__init__.py` and `main.run`, as a program that asks
for what lies outside: the ClickHouse client, the adapter with its SDK, and the
polling loop. The whole environment is read before any of them.
-/

namespace LlmWorker.Startup

open Python JsonText Transition Settings

/-- The configuration of one provider; its constructor is the provider. -/
inductive ProviderConfig
  | bedrock (config : BedrockConfig)
  | vertex (project region : String) (timeout : Python.Float)
  | foundry (resource : String) (timeout : Python.Float)

namespace ProviderConfig

def provider : ProviderConfig → String
  | .bedrock _ => "bedrock"
  | .vertex _ _ _ => "vertex"
  | .foundry _ _ => "foundry"

def cloud : ProviderConfig → String
  | .bedrock _ => "aws"
  | .vertex _ _ _ => "gcp"
  | .foundry _ _ => "azure"

/-- `BedrockProvider.capabilities` and `AnthropicMessagesProvider.capabilities` -/
def capabilities : ProviderConfig → List String
  | .bedrock _ => ["output_format", "thinking", "effort"]
  | .vertex _ _ _ | .foundry _ _ => ["output_format", "thinking", "effort"]

def classifyError : ProviderConfig → Exc → ErrorDisposition
  | .bedrock _ => Bedrock.classifyError
  | .vertex _ _ _ | .foundry _ _ => AnthropicMessages.classifyError

end ProviderConfig

-- ---------------------------------------------------------------------------
-- The registry
-- ---------------------------------------------------------------------------

section
variable (py : Stdlib) (D : Decimals) (F : FloatText) (environ : Environ)

def requireEnv (name : String) : Result String := do
  let value := (environ name).getD ""
  raiseIf (value = "") (valueError (name ++ " is required for the selected LLM_PROVIDER"))
  return value

def loadVertexConfig : Result ProviderConfig := do
  let project ← requireEnv environ "ANTHROPIC_VERTEX_PROJECT_ID"
  let region := (environ "CLOUD_ML_REGION").getD "global"
  let timeout ← parseEnvFloat py D F environ "LLM_REQUEST_TIMEOUT_SECONDS" "120"
  return .vertex project region timeout

def loadFoundryConfig : Result ProviderConfig := do
  let resource ← requireEnv environ "ANTHROPIC_FOUNDRY_RESOURCE"
  let timeout ← parseEnvFloat py D F environ "LLM_REQUEST_TIMEOUT_SECONDS" "120"
  return .foundry resource timeout

/-- A `_Provider`, but for its factory. -/
structure Entry where
  configLoader : Result ProviderConfig
  imageVariant : String

/-- `_PROVIDERS` -/
def providers : List (String × Entry) :=
  [("bedrock", ⟨(loadBedrockConfig py environ).map .bedrock, "aws"⟩),
    ("vertex", ⟨loadVertexConfig py D F environ, "gcp"⟩),
    ("foundry", ⟨loadFoundryConfig py D F environ, "azure"⟩)]

/-- `_get` -/
def getEntry (name : String) : Result Entry :=
  match (providers py D F environ).lookup name with
  | some entry => .ok entry
  | none => .error (valueError ("LLM_PROVIDER=" ++ py.repr (.str name) ++ " is not supported (expected " ++
      ", ".intercalate ((providers py D F environ).map fun kv => py.repr (.str kv.1)) ++ ")"))

def loadProviderConfig (provider : String) : Result ProviderConfig := do
  let entry ← getEntry py D F environ provider
  entry.configLoader

end

-- ---------------------------------------------------------------------------
-- The composition root
-- ---------------------------------------------------------------------------

structure Service where
  pendingBatchLimit : Int
  batchPageSize : Int
  provider : ProviderConfig
  maxWorkers : Int
  retryMaxAttempts : Int
  retryMaxBackoff : Int
  pollInterval : Python.Float
  workerInfo : WorkerInfo

/-- What the start asks for. `verify` is a certificate, or `True` when there is none. -/
inductive Op
  | getClient (host : String) (port : Int) (username password database : String) (secure : Bool)
      (verify : Option String)
  | build (config : ProviderConfig)
  | serve (service : Service)

abbrev Answer : Op → Type := fun _ => Result Unit

abbrev Code (α : Type) := ExceptT Exc (Program Op Answer) α

def ask (o : Op) : Code Unit := ExceptT.mk (Program.ask o .done)

def ofResult (r : Result α) : Code α := ExceptT.mk (Program.done r)

def isImportError (e : Exc) : Bool := e.type ∈ [.other "ImportError", .other "ModuleNotFoundError"]

def unavailable (provider imageVariant : String) (e : Exc) : Exc :=
  ⟨.other "RuntimeError", "LLM_PROVIDER=" ++ provider ++ " selected but its adapter/SDK is unavailable (" ++ e.text ++
    "). Is this the " ++ imageVariant ++ " image variant?"⟩

def clickhouseClient (config : ClickHouseConfig) : Op :=
  .getClient config.host config.port config.user config.password config.database (config.caCert ≠ "")
    (if config.caCert = "" then none else some config.caCert)

def serviceOf (config : Settings.ServiceConfig) (providerConfig : ProviderConfig) : Service where
  pendingBatchLimit := config.pendingBatchLimit
  batchPageSize := config.batchPageSize
  provider := providerConfig
  maxWorkers := config.maxWorkers
  retryMaxAttempts := config.retryMaxAttempts
  retryMaxBackoff := config.retryMaxBackoff
  pollInterval := config.pollInterval
  workerInfo := ⟨providerConfig.cloud, providerConfig.provider, providerConfig.capabilities⟩

section
variable (py : Stdlib) (D : Decimals) (F : FloatText) (environ : Environ)

def createProvider (providerConfig : ProviderConfig) : Code Unit := do
  let entry ← ofResult (getEntry py D F environ providerConfig.provider)
  tryCatch (ask (.build providerConfig)) fun e =>
    if isImportError e then throw (unavailable providerConfig.provider entry.imageVariant e) else throw e

def run : Code Unit := do
  let config ← ofResult (loadConfig py D F environ)
  let providerConfig ← ofResult (loadProviderConfig py D F environ ((environ "LLM_PROVIDER").getD "bedrock"))
  ask (clickhouseClient config.clickhouse)
  createProvider py D F environ providerConfig
  ask (.serve (serviceOf config providerConfig))

end

-- ---------------------------------------------------------------------------
-- The registry is consistent
-- ---------------------------------------------------------------------------

theorem map_ok {x : Except ε α} {f : α → β} : x.map f = .ok b ↔ ∃ a, x = .ok a ∧ f a = b := by
  cases x <;> simp [Except.map]

theorem map_error {x : Except ε α} {f : α → β} : x.map f = .error e ↔ x = .error e := by
  cases x <;> simp [Except.map]

section
variable {py : Stdlib} {D : Decimals} {F : FloatText} {environ : Environ} {name : String} {p : ProviderConfig}

theorem getEntry_mem (h : getEntry py D F environ name = .ok entry) : (name, entry) ∈ providers py D F environ := by
  unfold getEntry at h
  cases hlookup : (providers py D F environ).lookup name with
  | none => simp [hlookup] at h
  | some found =>
    obtain ⟨before, after, hsplit, -⟩ := List.lookup_eq_some_iff.mp hlookup
    obtain rfl : found = entry := by simpa [hlookup] using h
    simp [hsplit]

theorem provider_loaded (h : loadProviderConfig py D F environ name = .ok p) : p.provider = name := by
  obtain ⟨entry, hentry, hload⟩ := bind_ok.mp h
  have hmem := getEntry_mem hentry
  simp only [providers, List.mem_cons, Prod.mk.injEq, List.not_mem_nil, or_false] at hmem
  rcases hmem with ⟨rfl, rfl⟩ | ⟨rfl, rfl⟩ | ⟨rfl, rfl⟩
  · obtain ⟨config, -, rfl⟩ := map_ok.mp hload
    rfl
  · simp only [loadVertexConfig, bind_ok, pure_ok] at hload
    obtain ⟨project, -, timeout, -, rfl⟩ := hload
    rfl
  · simp only [loadFoundryConfig, bind_ok, pure_ok] at hload
    obtain ⟨resource, -, timeout, -, rfl⟩ := hload
    rfl

theorem getEntry_provider (p : ProviderConfig) :
    ∃ entry, getEntry py D F environ p.provider = .ok entry ∧ entry.imageVariant = p.cloud := by
  cases p <;> exact ⟨_, by simp [getEntry, providers, ProviderConfig.provider, List.lookup_cons]; rfl, rfl⟩

-- ---------------------------------------------------------------------------
-- What an error is about
-- ---------------------------------------------------------------------------

def profilesText (environ : Environ) : String := environOr environ "BEDROCK_INFERENCE_PROFILES" "\x7b\x7d"

/-- The providers of the Anthropic client, and the variable that each requires. -/
def required : List (String × String) :=
  [("vertex", "ANTHROPIC_VERTEX_PROJECT_ID"), ("foundry", "ANTHROPIC_FOUNDRY_RESOURCE")]

/-- Why the start is rejected with `e`: a number that was set and does not pass
its check, a provider that there is none of, a variable that the provider
requires and is not set, or a map of profiles that is no JSON object; `json.loads`
may fail on that map in a way of its own. -/
inductive Faulty (py : Stdlib) (D : Decimals) (F : FloatText) (environ : Environ) (e : Exc) : Prop
  | count {name : String} (hname : name ∈ counts) (h : Rejected (intKind D) environ name e)
  | interval (h : Rejected (floatKind D F) environ "POLL_INTERVAL" e)
  | provider {name : String} (hset : environ "LLM_PROVIDER" = some name)
      (hunknown : name ∉ ["bedrock", "vertex", "foundry"]) (hnames : Names "LLM_PROVIDER" e)
  | missing {provider name : String} (hprovider : (provider, name) ∈ required)
      (hset : environ "LLM_PROVIDER" = some provider) (hmissing : (environ name).getD "" = "") (hnames : Names name e)
  | timeout {provider : String} (hprovider : provider ∈ required.map (·.1))
      (hset : environ "LLM_PROVIDER" = some provider)
      (h : Rejected (floatKind D F) environ "LLM_REQUEST_TIMEOUT_SECONDS" e)
  | profiles (hprovider : (environ "LLM_PROVIDER").getD "bedrock" = "bedrock")
      (hnone : ∀ items, py.loads (profilesText environ) ≠ .ok (.dict items))
      (hnames : Names "BEDROCK_INFERENCE_PROFILES" e)
  | loads (hprovider : (environ "LLM_PROVIDER").getD "bedrock" = "bedrock")
      (hloads : py.loads (profilesText environ) = .error e) (htype : e.type ≠ .jsonDecodeError)

theorem getEntry_error (h : getEntry py D F environ ((environ "LLM_PROVIDER").getD "bedrock") = .error e) :
    Faulty py D F environ e := by
  cases hset : environ "LLM_PROVIDER" with
  | none => simp [hset, getEntry, providers] at h
  | some name =>
    unfold getEntry at h
    split at h
    · cases h
    · rename_i hlookup
      cases h
      refine .provider hset ?_ (by simp [Names, valueError, String.toList_append])
      have hnone := List.lookup_eq_none_iff.mp hlookup
      simpa [providers, hset] using hnone

theorem loadBedrockConfig_error (h : loadBedrockConfig py environ = .error e) :
    ((∀ items, py.loads (profilesText environ) ≠ .ok (.dict items)) ∧ Names "BEDROCK_INFERENCE_PROFILES" e) ∨
      (py.loads (profilesText environ) = .error e ∧ e.type ≠ .jsonDecodeError) := by
  simp only [loadBedrockConfig, bind_error] at h
  rcases h with h | ⟨_, _, h⟩
  · unfold parseEnvJsonStrMap at h
    rw [← profilesText] at h
    cases hloads : py.loads (profilesText environ) with
    | error e' =>
      simp only [hloads] at h
      split at h
      · cases h
        exact .inl ⟨by simp, by simp [Names, valueError, String.toList_append]⟩
      · rename_i htype
        cases h
        exact .inr ⟨rfl, htype⟩
    | ok value =>
      cases value with
      | dict items => simp [hloads] at h
      | _ =>
        simp only [hloads] at h
        cases h
        exact .inl ⟨by simp, names_valueError _ _⟩
  · cases h

theorem accepts_timeout (hF : F.Exact) : (floatKind D F).Accepts "120" (.ofInt 120) :=
  accepts_float hF (by decide) (by decide +kernel)

theorem required_error (hF : F.Exact) {build : String → Python.Float → ProviderConfig}
    (h : (do
      let value ← requireEnv environ name
      let timeout ← parseEnvFloat py D F environ "LLM_REQUEST_TIMEOUT_SECONDS" "120"
      return build value timeout) = .error e) :
    ((environ name).getD "" = "" ∧ Names name e) ∨
      Rejected (floatKind D F) environ "LLM_REQUEST_TIMEOUT_SECONDS" e := by
  simp only [bind_error] at h
  rcases h with h | ⟨_, -, h | ⟨_, -, h⟩⟩
  · simp only [requireEnv, bind_error, raiseIf] at h
    rcases h with h | ⟨_, _, h⟩
    · split at h
      · rename_i hmissing
        cases h
        exact .inl ⟨hmissing, names_valueError name _⟩
      · cases h
    · cases h
  · exact .inr (parseEnv_error (accepts_timeout hF) h)
  · cases h

theorem provider_set (h : name = (environ "LLM_PROVIDER").getD "bedrock") (hne : name ≠ "bedrock") :
    environ "LLM_PROVIDER" = some name := by
  cases hset : environ "LLM_PROVIDER" with
  | none =>
    rw [hset] at h
    exact absurd h hne
  | some set =>
    rw [hset] at h
    exact congrArg some h.symm

theorem loadProviderConfig_error (hF : F.Exact)
    (h : loadProviderConfig py D F environ ((environ "LLM_PROVIDER").getD "bedrock") = .error e) :
    Faulty py D F environ e := by
  rcases bind_error.mp h with h | ⟨entry, hentry, h⟩
  · exact getEntry_error h
  · have hmem := getEntry_mem hentry
    simp only [providers, List.mem_cons, Prod.mk.injEq, List.not_mem_nil, or_false] at hmem
    rcases hmem with ⟨hname, rfl⟩ | ⟨hname, rfl⟩ | ⟨hname, rfl⟩
    · rcases loadBedrockConfig_error (map_error.mp h) with ⟨hnone, hnames⟩ | ⟨hloads, htype⟩
      · exact .profiles hname hnone hnames
      · exact .loads hname hloads htype
    · have hset := provider_set hname.symm (by decide)
      rcases required_error hF h with ⟨hmissing, hnames⟩ | htimeout
      · exact .missing (by simp [required]) hset hmissing hnames
      · exact .timeout (by simp [required]) hset htimeout
    · have hset := provider_set hname.symm (by decide)
      rcases required_error hF h with ⟨hmissing, hnames⟩ | htimeout
      · exact .missing (by simp [required]) hset hmissing hnames
      · exact .timeout (by simp [required]) hset htimeout

-- ---------------------------------------------------------------------------
-- A start, whatever lies outside
-- ---------------------------------------------------------------------------

def settings (py : Stdlib) (D : Decimals) (F : FloatText) (environ : Environ) :
    Result (Settings.ServiceConfig × ProviderConfig) := do
  let config ← loadConfig py D F environ
  let providerConfig ← loadProviderConfig py D F environ ((environ "LLM_PROVIDER").getD "bedrock")
  return (config, providerConfig)

def script (config : Settings.ServiceConfig) (p : ProviderConfig) : List Op :=
  [clickhouseClient config.clickhouse, .build p, .serve (serviceOf config p)]

/-- What the process raises when a step has raised `e`. -/
def reword (p : ProviderConfig) : Op → Exc → Exc
  | .build _, e => if isImportError e then unavailable p.provider p.cloud e else e
  | _, e => e

/-- One operation after the other, up to the first that raises. -/
def chain (reword : Op → Exc → Exc) : List Op → Program Op Answer (Result Unit)
  | [] => .done (.ok ())
  | o :: rest => .ask o fun r => match r with
    | .error e => .done (.error (reword o e))
    | .ok _ => chain reword rest

theorem chain_run {reword : Op → Exc → Exc} {ops : List Op} {es : List (Event Answer)}
    (h : (Program.steps Op Answer (Result Unit)).Run (chain reword ops) es q) :
    es.map (·.op) <+: ops ∧ (∀ e ∈ es.dropLast, e.answer = .ok ()) ∧
      ∀ r, q = .done r → (r = .ok () ∧ es.map (·.op) = ops ∧ ∀ e ∈ es, e.answer = .ok ()) ∨
        ∃ o exc, es.getLast? = some ⟨o, .error exc⟩ ∧ r = .error (reword o exc) := by
  induction ops generalizing es with
  | nil =>
    cases es with
    | nil =>
      obtain rfl := h.nil_inv
      simp [chain, eq_comm]
    | cons first es =>
      obtain ⟨_, ⟨_, hstep, -⟩, -⟩ := h.cons_inv
      cases hstep
  | cons o ops ih =>
    cases es with
    | nil =>
      obtain rfl := h.nil_inv
      simp [chain]
    | cons first es =>
      obtain ⟨_, hstep, hrest⟩ := h.cons_inv
      obtain ⟨r, rfl, rfl⟩ := Program.step_ask.mp hstep
      cases r with
      | error exc =>
        cases es with
        | nil =>
          obtain rfl := hrest.nil_inv
          simp
        | cons next es =>
          obtain ⟨_, ⟨_, hstep, -⟩, -⟩ := hrest.cons_inv
          cases hstep
      | ok u =>
        obtain ⟨hops, hok, hdone⟩ := ih hrest
        refine ⟨by simpa using hops, ?_, fun result hq => ?_⟩
        · cases es with
          | nil => simp
          | cons next es => simpa using hok
        · cases hdone result hq with
          | inl hall => exact .inl (by simpa using hall)
          | inr hlast =>
            obtain ⟨o', exc, hlast, hresult⟩ := hlast
            exact .inr ⟨o', exc, by simp [List.getLast?_cons, hlast], hresult⟩

theorem ofResult_ok (a : α) (f : α → Code β) : (ofResult (.ok a) >>= f) = f a := rfl

theorem run_settings (h : settings py D F environ = .ok (config, p)) :
    (run py D F environ).run = chain (reword p) (script config p) := by
  simp only [settings, bind_ok, pure_ok, Prod.mk.injEq] at h
  obtain ⟨config', hconfig, p', hp, rfl, rfl⟩ := h
  obtain ⟨entry, hentry, hvariant⟩ := @getEntry_provider py D F environ p'
  unfold run createProvider
  simp only [hconfig, hp, ofResult_ok, hentry]
  show Program.ask _ _ = Program.ask _ _
  congr 1
  funext r
  cases r with
  | error e => rfl
  | ok =>
    show Program.ask _ _ = Program.ask _ _
    congr 1
    funext r
    cases r with
    | error e =>
      cases himport : isImportError e with
      | true =>
        simp only [himport, if_true, Program.bind, reword, ← hvariant]
        rfl
      | false =>
        simp only [himport, Bool.false_eq_true, if_false, Program.bind, reword]
        rfl
    | ok =>
      show Program.ask _ _ = Program.ask _ _
      congr 1
      funext r
      cases r <;> rfl

theorem run_rejected (h : settings py D F environ = .error e) :
    (run py D F environ).run = .done (.error e) := by
  unfold run
  cases hconfig : loadConfig py D F environ with
  | error e' =>
    obtain rfl : e' = e := by simpa [settings, hconfig, bind_error] using h
    rfl
  | ok config =>
    simp only [ofResult_ok]
    cases hp : loadProviderConfig py D F environ ((environ "LLM_PROVIDER").getD "bedrock") with
    | error e' =>
      obtain rfl : e' = e := by simpa [settings, hconfig, hp] using h
      rfl
    | ok p => simp [settings, hconfig, hp] at h

theorem settings_error (hF : F.Exact) (h : settings py D F environ = .error e) : Faulty py D F environ e := by
  simp only [settings, bind_error] at h
  rcases h with h | ⟨_, -, h | ⟨_, -, h⟩⟩
  · rcases loadConfig_error hF h with ⟨name, hname, hrejected⟩ | hrejected
    · exact .count hname hrejected
    · exact .interval hrejected
  · exact loadProviderConfig_error hF h
  · cases h

structure Realizes (cfg : LlmWorker.ServiceConfig) (service : Service) : Prop where
  classifyError : cfg.executor.classifyError = service.provider.classifyError
  maxWorkers : (cfg.executor.maxWorkers : Int) = service.maxWorkers
  retryMaxAttempts : (cfg.executor.retryMaxAttempts : Int) = service.retryMaxAttempts
  retryMaxAttempts_pos : 0 < cfg.executor.retryMaxAttempts
  pendingBatchLimit : (cfg.pendingBatchLimit : Int) = service.pendingBatchLimit
  pendingBatchLimit_pos : 0 < cfg.pendingBatchLimit
  batchPageSize : (cfg.batchPageSize : Int) = service.batchPageSize

theorem count_toNat (h : Count n) : 0 < n.toNat ∧ (n.toNat : Int) = n := by
  have hpos : 1 ≤ n := h.1
  omega

theorem realizes_serviceOf {config : Settings.ServiceConfig} (h : config.Valid) (py : Stdlib) (p : ProviderConfig) :
    ∃ cfg : LlmWorker.ServiceConfig, cfg.executor.py = py ∧ Realizes cfg (serviceOf config p) := by
  obtain ⟨hworkers, hmaxWorkers⟩ := count_toNat h.maxWorkers
  obtain ⟨hattempts, hmaxAttempts⟩ := count_toNat h.retryMaxAttempts
  obtain ⟨hlimit, hpendingLimit⟩ := count_toNat h.pendingBatchLimit
  obtain ⟨hsize, hpageSize⟩ := count_toNat h.batchPageSize
  exact ⟨{
      executor := {
        py
        classifyError := p.classifyError
        maxWorkers := config.maxWorkers.toNat
        retryMaxAttempts := config.retryMaxAttempts.toNat
        maxWorkers_pos := hworkers }
      pendingBatchLimit := config.pendingBatchLimit.toNat
      batchPageSize := config.batchPageSize.toNat
      batchPageSize_pos := hsize },
    rfl, rfl, hmaxWorkers, hmaxAttempts, hattempts, hpendingLimit, hlimit, hpageSize⟩

/-- Either the environment is faulty, and nothing outside is touched, or the
start asks for the client, the adapter and the loop, in this order and each only
once the one before has succeeded. The adapter is that of the provider asked for, the
loop has settings it can run with, and the process ends as its last step did, but
that a missing SDK is reported with the image to use. -/
theorem startup (hF : F.Exact) (h : (Program.steps Op Answer (Result Unit)).Run (run py D F environ).run es q) :
    (∃ e, settings py D F environ = .error e ∧ Faulty py D F environ e ∧ es = [] ∧ q = .done (.error e)) ∨
      ∃ config p, settings py D F environ = .ok (config, p) ∧
        p.provider = (environ "LLM_PROVIDER").getD "bedrock" ∧
        (∃ cfg : LlmWorker.ServiceConfig, cfg.executor.py = py ∧ Realizes cfg (serviceOf config p)) ∧
        es.map (·.op) <+: script config p ∧ (∀ e ∈ es.dropLast, e.answer = .ok ()) ∧
        ∀ r, q = .done r → (r = .ok () ∧ es.map (·.op) = script config p ∧ ∀ e ∈ es, e.answer = .ok ()) ∨
          ∃ o exc, es.getLast? = some ⟨o, .error exc⟩ ∧ r = .error (reword p o exc) := by
  cases hsettings : settings py D F environ with
  | error e =>
    rw [run_rejected hsettings] at h
    refine .inl ⟨e, rfl, settings_error hF hsettings, ?_⟩
    cases es with
    | nil => exact ⟨rfl, h.nil_inv.symm⟩
    | cons first es =>
      obtain ⟨_, ⟨_, hstep, -⟩, -⟩ := h.cons_inv
      cases hstep
  | ok both =>
    obtain ⟨config, p⟩ := both
    rw [run_settings hsettings] at h
    obtain ⟨config', hconfig, p', hp, hboth⟩ : ∃ config', loadConfig py D F environ = .ok config' ∧ ∃ p',
        loadProviderConfig py D F environ ((environ "LLM_PROVIDER").getD "bedrock") = .ok p' ∧
          (config', p') = (config, p) := by
      simpa only [settings, bind_ok, pure_ok] using hsettings
    cases hboth
    exact .inr ⟨config, p, rfl, provider_loaded hp, realizes_serviceOf (loadConfig_valid hconfig) py p, chain_run h⟩

end

-- ---------------------------------------------------------------------------
-- Vertex on the image of another cloud
-- ---------------------------------------------------------------------------

def asciiDecimals : Decimals where
  digit c := if c.isDigit then some (c.toNat - 48) else none
  digit_lt c d h := by
    by_cases hdigit : c.isDigit = true
    · have hrange := Char.isDigit_iff_toNat.mp hdigit
      grind
    · simp [hdigit] at h
  digit_ascii _ _ := rfl

def vertexEnviron : Environ := fun name =>
  [("LLM_PROVIDER", "vertex"), ("ANTHROPIC_VERTEX_PROJECT_ID", "project")].lookup name

def vertexConfig : ProviderConfig := .vertex "project" "global" (.ofInt 120)

def missingSdk : Exc := ⟨.other "ModuleNotFoundError", "No module named 'anthropic'"⟩

def otherImage : List (Event Answer) :=
  [⟨clickhouseClient defaults.clickhouse, .ok ()⟩, ⟨.build vertexConfig, .error missingSdk⟩]

theorem settings_vertex :
    settings sampleStdlib asciiDecimals exactFloats vertexEnviron = .ok (defaults, vertexConfig) := by
  have hunset : ∀ entry ∈ defaults.entries exactFloats, vertexEnviron entry.1 = none := by
    simp [ServiceConfig.entries, vertexEnviron, List.lookup_cons]
  have htimeout : parseEnvFloat sampleStdlib asciiDecimals exactFloats vertexEnviron "LLM_REQUEST_TIMEOUT_SECONDS"
      "120" = .ok (.ofInt 120) :=
    parseEnv_unset (by simp [vertexEnviron, List.lookup_cons]) (accepts_timeout exactFloats_exact)
  have hvertex : loadVertexConfig sampleStdlib asciiDecimals exactFloats vertexEnviron = .ok vertexConfig := by
    rw [loadVertexConfig, htimeout]
    simp [requireEnv, vertexEnviron, List.lookup_cons, raiseIf, vertexConfig]
  have hprovider : (vertexEnviron "LLM_PROVIDER").getD "bedrock" = "vertex" := by
    simp [vertexEnviron]
  rw [settings, loadConfig_defaults exactFloats_exact hunset, hprovider]
  simp [loadProviderConfig, getEntry, providers, List.lookup_cons, hvertex]

theorem run_otherImage : (Program.steps Op Answer (Result Unit)).Run
    (run sampleStdlib asciiDecimals exactFloats vertexEnviron).run otherImage
    (.done (.error (unavailable "vertex" "gcp" missingSdk))) := by
  rw [run_settings settings_vertex]
  exact .cons ⟨_, rfl, rfl⟩ (.cons ⟨_, rfl, rfl⟩ .nil)

theorem startup_otherImage : isImportError missingSdk = true ∧
    ∃ config p, settings sampleStdlib asciiDecimals exactFloats vertexEnviron = .ok (config, p) ∧
      p.provider = "vertex" ∧ otherImage.map (·.op) <+: script config p ∧
      Program.done (.error (unavailable "vertex" "gcp" missingSdk)) =
        (.done (.error (reword p (.build p) missingSdk)) : Program Op Answer (Result Unit)) := by
  refine ⟨rfl, ?_⟩
  cases startup exactFloats_exact run_otherImage with
  | inl hrejected =>
    obtain ⟨_, -, -, hes, -⟩ := hrejected
    cases hes
  | inr hstarted =>
    obtain ⟨config, p, hsettings, hprovider, -, hops, -, -⟩ := hstarted
    have hvertex : p = vertexConfig := by
      rw [settings_vertex] at hsettings
      cases hsettings
      rfl
    refine ⟨config, p, hsettings, ?_, hops, ?_⟩
    · rw [hvertex]
      rfl
    · rw [hvertex]
      rfl

end LlmWorker.Startup
