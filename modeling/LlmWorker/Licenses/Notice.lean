import LlmWorker.Licenses.Package

/-!
# The NOTICE and the bundled files

`render_notice` and `build_outputs`. The third-party part of the NOTICE is a
list of sections, one for each family that occurs, and their lines are its text.
-/

namespace LlmWorker.Licenses

open Python

/-- A package in a section, with what its lines take from it. -/
structure Entry where
  number : Nat
  package : Package
  url : Str
  deriving DecidableEq

structure Section where
  family : Str
  entries : List Entry
  deriving DecidableEq

def indent : Str := List.replicate 6 ' '
def rule : Str := List.replicate 80 '-'

def preamble (cloud : Str) : List Str :=
  ["NOTICE".toList, "======".toList, [], "ao-llm-worker".toList,
    join " ".toList ["Copyright".toList, "2026 Monte Carlo AI, Inc.".toList], [],
    "This product includes software developed at Monte Carlo AI, Inc.".toList,
    "(https://montecarlo.ai).".toList, [], rule,
    "Third-party components (".toList ++ cloud ++ " image variant)".toList, rule, []] ++
  ["The ao-llm-worker container image bundles the following third-party",
    "components. Each is installed unmodified into the application virtual",
    "environment (/app/.venv) of the distributed image. A verbatim copy of each",
    "component's license is provided under the LICENSES/ directory distributed",
    "alongside this NOTICE (LICENSES/<project>/, mounted at /app/LICENSES in the",
    "image). Where an upstream project ships its own NOTICE file, that file is",
    "reproduced verbatim at LICENSES/<project>/NOTICE and its attribution notices",
    "are incorporated here by reference, as required by Apache License 2.0",
    "section 4(d).",
    "",
    "This file is generated by scripts/gen_licenses.py from the built image; the",
    "exact versions bundled in any given release are recorded in uv.lock.",
    ""].map String.toList

def uvLines : List Str :=
  ["Build tooling",
    "  uv (the Python package installer) is copied into the image from the",
    "  astral-sh/uv distribution and is dual-licensed Apache-2.0 OR MIT.",
    "  LICENSES/uv/LICENSE-APACHE, LICENSES/uv/LICENSE-MIT",
    ""].map String.toList

def familyNames : List Str := licenseFamilies.map Prod.fst ++ [otherLicenses]

def noticeKey : Str := "NOTICE".toList
def licensesDir : Str := "LICENSES".toList

section

variable (u : Unicode) (hostname : Str → Result (Option Str))

/-- `f"LICENSES/{cdir}/{f}"` -/
def artifactPath (pkg : Package) (file : Str) : Str :=
  licensesDir ++ '/' :: (canonicalDir u pkg.name ++ '/' :: file)

def Entry.cited (e : Entry) : List Str :=
  (sortedBy id e.package.licenseFiles.keys).map (artifactPath u e.package)

def Entry.lines (family : Str) (e : Entry) : List Str :=
  let pkg := e.package
  let declared := declaredLicense pkg
  let cr := copyrightLine u pkg.licenseFiles
  let artifacts := join ", ".toList (e.cited u)
  let head := "  ".toList ++ natText2 e.number ++ ". ".toList ++ pkg.name ++ ' ' :: pkg.version
  [if declared <:+: family then head else head ++ "  [".toList ++ declared ++ "]".toList] ++
    (if cr = [] then [] else [indent ++ cr]) ++
    (if e.url = [] then [] else [indent ++ e.url]) ++
    (if artifacts = [] then [] else [indent ++ artifacts])

def Section.lines (sec : Section) : List Str := sec.family :: sec.entries.flatMap (Entry.lines u sec.family) ++ [[]]

def noticeText (cloud : Str) (secs : List Section) (hasUv : Bool) : Str :=
  rstrip (join "\n".toList (preamble cloud ++ secs.flatMap (Section.lines u) ++ if hasUv then uvLines else [])) ++ ['\n']

/-- `sorted(pkgs, key=lambda p: p["name"].lower())` -/
def sortedByName (pkgs : List Package) : List Package := sortedBy (fun pkg => u.lower pkg.name) pkgs

def entry (numbered : Package × Nat) : Result Entry := do
  let url ← bestUrl u hostname numbered.1
  .ok ⟨numbered.2, numbered.1, url⟩

def entries (pkgs : List Package) : Result (List Entry) := ((sortedByName u pkgs).zipIdx 1).mapM (entry u hostname)

def familySections (groups : Dict Str (List Package)) (family : Str) : Result (List Section) :=
  match (groups.get? family).getD [] with
  | [] => .ok []
  | pkg :: pkgs => do
    let es ← entries u hostname (pkg :: pkgs)
    .ok [⟨family, es⟩]

def familyOf (pkg : Package) : Str := licenseFamily u (declaredLicense pkg)

def sections (packages : List Package) : Result (List Section) := do
  let groups := Dict.groupBy (familyOf u) packages
  let secs ← familyNames.mapM (familySections u hostname groups)
  .ok secs.flatten

def renderNotice (cloud : Str) (packages : List Package) (hasUv : Bool) : Result Str := do
  let secs ← sections u hostname packages
  .ok (noticeText u cloud secs hasUv)

def artifacts (packages : List Package) : List (Str × Str) :=
  packages.flatMap fun pkg => pkg.licenseFiles.items.map fun file => (artifactPath u pkg file.1, file.2)

def buildOutputs (cloud : Str) (packages : List Package) (hasUv : Bool) : Result (Dict Str Str) := do
  let notice ← renderNotice u hostname cloud packages hasUv
  .ok ((Dict.empty.set noticeKey notice).update (artifacts u packages))

end

end LlmWorker.Licenses
