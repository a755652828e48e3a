import LlmWorker.Contract

/-!
# The Bedrock configuration

`config.py`: the inference profiles are read from a JSON object in the
environment. Entries that are not ARNs are skipped, and the keys go through
the same prefix stripping as a request's model id.
-/

namespace LlmWorker

open Python

/-- `os.environ.get` -/
abbrev Environ := String → Option String

structure BedrockConfig where
  region : String
  inferenceProfiles : List (String × String)

/-- `d[key] = value`: a new key comes last, an old one keeps its place. -/
def setItem (d : List (String × String)) (item : String × String) : List (String × String) :=
  if item.1 ∈ d.map (·.1) then d.map fun kv => if kv.1 = item.1 then item else kv else d ++ [item]

/-- `isinstance(entry, str) and entry.startswith("arn:")` -/
def arnEntry (item : String × Json) : Option (String × String) :=
  match item.2 with
  | .str s => if "arn:".toList <+: s.toList then some (item.1, s) else none
  | _ => none

/-- `os.environ.get(name) or default` -/
def environOr (environ : Environ) (name default : String) : String :=
  match environ name with
  | some s => if s = "" then default else s
  | none => default

def parseEnvJsonStrMap (py : Stdlib) (environ : Environ) (name : String) : Result (List (String × String)) :=
  let raw := environOr environ name "\x7b\x7d"
  match py.loads raw with
  | .ok (.dict items) => .ok (items.filterMap arnEntry)
  | .ok _ => .error (valueError (name ++ " must be a JSON object"))
  | .error e =>
    if e.type = .jsonDecodeError then
      .error (valueError (name ++ "=" ++ py.repr (.str raw) ++ " is not valid JSON"))
    else .error e

def loadBedrockConfig (py : Stdlib) (environ : Environ) : Result BedrockConfig := do
  let rawProfiles ← parseEnvJsonStrMap py environ "BEDROCK_INFERENCE_PROFILES"
  return { region := (environ "AWS_REGION").getD "us-east-1"
           inferenceProfiles := (rawProfiles.map fun kv => (resolveModelRef kv.1, kv.2)).foldl setItem [] }

-- ---------------------------------------------------------------------------
-- Which models are mapped
-- ---------------------------------------------------------------------------

theorem mem_setItem (h : kv ∈ setItem d item) : kv = item ∨ kv ∈ d := by
  unfold setItem at h
  split at h
  · obtain ⟨old, hold, rfl⟩ := List.mem_map.mp h
    split
    · exact .inl rfl
    · exact .inr hold
  · simpa [or_comm] using h

theorem keys_setItem {key : String} : key ∈ (setItem d item).map (·.1) ↔ key = item.1 ∨ key ∈ d.map (·.1) := by
  unfold setItem
  split
  · rename_i hold
    have hkeys : (d.map fun kv => if kv.1 = item.1 then item else kv).map (·.1) = d.map (·.1) := by
      rw [List.map_map]
      refine List.map_congr_left fun kv _ => ?_
      by_cases hk : kv.1 = item.1 <;> simp [hk]
    rw [hkeys]
    exact ⟨.inr, fun h => h.elim (fun hk => hk ▸ hold) (fun hm => hm)⟩
  · simp [or_comm]

theorem mem_foldl_setItem (items d : List (String × String)) (h : kv ∈ items.foldl setItem d) :
    kv ∈ items ∨ kv ∈ d := by
  induction items generalizing d with
  | nil => exact .inr h
  | cons item rest ih =>
    rcases ih (setItem d item) h with hrest | hset
    · exact .inl (List.mem_cons_of_mem item hrest)
    · rcases mem_setItem hset with rfl | hold
      · exact .inl List.mem_cons_self
      · exact .inr hold

theorem keys_foldl_setItem (items d : List (String × String)) (key : String) :
    key ∈ (items.foldl setItem d).map (·.1) ↔ key ∈ items.map (·.1) ∨ key ∈ d.map (·.1) := by
  induction items generalizing d with
  | nil => simp
  | cons item rest ih => rw [List.foldl_cons, ih, keys_setItem, List.map_cons, List.mem_cons, or_assoc, or_left_comm]

def Configures (py : Stdlib) (environ : Environ) (key arn : String) : Prop :=
  ∃ raw, parseEnvJsonStrMap py environ "BEDROCK_INFERENCE_PROFILES" = .ok raw ∧ (key, arn) ∈ raw

section
variable (h : loadBedrockConfig py environ = .ok config)
include h

theorem configures_of_profile (hp : (model, arn) ∈ config.inferenceProfiles) :
    ∃ key, Configures py environ key arn ∧ resolveModelRef key = model := by
  simp only [loadBedrockConfig, bind_ok, pure_ok] at h
  obtain ⟨raw, hraw, rfl⟩ := h
  rcases mem_foldl_setItem _ _ hp with hmem | hnil
  · obtain ⟨⟨key, value⟩, hkv, heq⟩ := List.mem_map.mp hmem
    obtain ⟨rfl, rfl⟩ := Prod.mk.inj heq
    exact ⟨key, ⟨raw, hraw, hkv⟩, rfl⟩
  · cases hnil

theorem profile_keys :
    model ∈ config.inferenceProfiles.map (·.1) ↔
      ∃ key arn, Configures py environ key arn ∧ resolveModelRef key = model := by
  simp only [loadBedrockConfig, bind_ok, pure_ok] at h
  obtain ⟨raw, hraw, rfl⟩ := h
  rw [keys_foldl_setItem]
  simp [Configures, hraw]

end

theorem arn_of_arnEntry (h : arnEntry item = some (key, arn)) : "arn:".toList <+: arn.toList := by
  unfold arnEntry at h
  split at h
  · split at h
    · cases h
      assumption
    · cases h
  · cases h

theorem arn_of_configures (h : Configures py environ key arn) : "arn:".toList <+: arn.toList := by
  obtain ⟨raw, hraw, hmem⟩ := h
  unfold parseEnvJsonStrMap at hraw
  generalize environOr environ _ _ = text at hraw
  cases hloads : py.loads text with
  | error e =>
    simp only [hloads] at hraw
    split at hraw <;> cases hraw
  | ok value =>
    cases value with
    | dict items =>
      simp only [hloads, Except.ok.injEq] at hraw
      subst hraw
      obtain ⟨item, -, hitem⟩ := List.mem_filterMap.mp hmem
      exact arn_of_arnEntry hitem
    | _ => simp [hloads] at hraw

end LlmWorker
