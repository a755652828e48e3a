import LlmWorker.Lib.FileTree
import LlmWorker.Licenses.Notice

/-!
# The generator on a file tree

The gates, `write_outputs`, `find_drift` and `main`. The run of the container,
which is not the script's code, is what `main` is given of it.
-/

namespace LlmWorker.Licenses

open Python
open FileTree (TreePath)

inductive Content
  | text (s : Str)
  | undecodable
  deriving DecidableEq

abbrev Tree := FileTree Content

/-- How the script ends early: `sys.exit(message)` or an exception. -/
inductive Stop
  | exit (message : Str)
  | raised (e : Exc)
  | os (e : FileTree.OSError)
  | unicodeDecodeError
  deriving DecidableEq

abbrev Script := EStateM Stop Tree

/-- A call of the operating system, which changes nothing where it fails. -/
def call (f : Tree → Except FileTree.OSError Tree) : Script Unit := fun t =>
  match f t with
  | .ok t' => .ok () t'
  | .error e => .error (.os e) t

def exit (message : Str) : Script α := throw (.exit message)

def ofResult : Result α → Script α
  | .ok a => pure a
  | .error e => throw (.raised e)

def ofStop : Except Stop α → Script α
  | .ok a => pure a
  | .error e => throw e

theorem run_bind_ok {x : Script α} {f : α → Script β} {t : Tree} (h : x.run t = .ok a t') :
    (x >>= f).run t = (f a).run t' := by
  show EStateM.bind x f t = f a t'
  have h : x t = .ok a t' := h
  simp only [EStateM.bind, h]

theorem run_bind_error {x : Script α} {f : α → Script β} {t : Tree} (h : x.run t = .error e t') :
    (x >>= f).run t = .error e t' := by
  show EStateM.bind x f t = .error e t'
  have h : x t = .error e t' := h
  simp only [EStateM.bind, h]

-- ---------------------------------------------------------------------------
-- The writer
-- ---------------------------------------------------------------------------

/-- The names in a path, as `pathlib` splits it. -/
def parts (rel : Str) : TreePath := (rel.splitOn '/').filter fun name => name ≠ [] ∧ name ≠ ['.']

/-- `dir / rel` -/
def joinPath (dir : TreePath) (rel : Str) : TreePath := if rel.head? = some '/' then parts rel else dir ++ parts rel

/-- `str(path)` of a relative path. -/
def pathText (path : TreePath) : Str := join ['/'] path

/-- `sorted(paths, reverse=True)` -/
def sortedDown (paths : List TreePath) : List TreePath := paths.insertionSort (· ≥ ·)

def removeChild (child : TreePath) : Script Unit := do
  let t ← get
  if t.isFile child || t.isSymlink child then call (·.unlink child) else call (·.rmdir child)

def cleanLicenses (dir : TreePath) : Script Unit := do
  let t ← get
  if t.exists? dir then (sortedDown (t.walkBelow dir)).forM fun child => removeChild (dir ++ child)

def writeOutput (outDir : TreePath) (output : Str × Str) : Script Unit := do
  let dest := joinPath outDir output.1
  call (·.mkdirs dest.dropLast)
  call (·.writeFile dest (.text output.2))

def writeOutputs (outDir : TreePath) (outputs : Dict Str Str) : Script Unit := do
  cleanLicenses (outDir ++ [licensesDir])
  outputs.items.forM (writeOutput outDir)

-- ---------------------------------------------------------------------------
-- The drift check
-- ---------------------------------------------------------------------------

/-- What reading in text mode makes of the ends of lines. -/
def universalNewlines : Str → Str
  | [] => []
  | '\r' :: '\n' :: s => '\n' :: universalNewlines s
  | c :: s => (if c = '\r' then '\n' else c) :: universalNewlines s

def readText (t : Tree) (path : TreePath) : Except Stop Str :=
  match t.readFile path with
  | .ok (.text s) => .ok (universalNewlines s)
  | .ok .undecodable => .error .unicodeDecodeError
  | .error e => .error (.os e)

def missingLine (rel : Str) : Str := "missing: ".toList ++ rel
def changedLine (rel : Str) : Str := "changed: ".toList ++ rel
def staleLine (rel : Str) : Str := "stale: ".toList ++ rel

def driftOf (t : Tree) (outDir : TreePath) (output : Str × Str) : Except Stop (List Str) :=
  let dest := joinPath outDir output.1
  if t.exists? dest then
    match readText t dest with
    | .error e => .error e
    | .ok text => .ok (if text ≠ output.2 then [changedLine output.1] else [])
  else .ok [missingLine output.1]

def onDisk (t : Tree) (outDir : TreePath) : List Str :=
  let dir := outDir ++ [licensesDir]
  (if t.exists? (outDir ++ [noticeKey]) then [noticeKey] else []) ++
    if t.exists? dir then
      ((t.walkBelow dir).filter fun rel => t.isFile (dir ++ rel)).map fun rel => pathText (licensesDir :: rel)
    else []

def findDrift (t : Tree) (outDir : TreePath) (outputs : Dict Str Str) : Except Stop (List Str) := do
  let lines ← (sortedBy Prod.fst outputs.items).mapM (driftOf t outDir)
  let stale := sortedBy id ((onDisk t outDir).filter fun rel => rel ∉ outputs.keys)
  .ok (lines.flatten ++ stale.map staleLine)

-- ---------------------------------------------------------------------------
-- The gates and main
-- ---------------------------------------------------------------------------

inductive Cloud
  | aws
  | azure
  | gcp
  deriving DecidableEq

def Cloud.text : Cloud → Str
  | .aws => "aws".toList
  | .azure => "azure".toList
  | .gcp => "gcp".toList

def checkLicensesPresent (packages : List Package) : Script Unit :=
  let missing := (packages.filter fun pkg => pkg.licenseFiles.items = []).map (·.name)
  if missing ≠ [] then
    exit ("ERROR: no bundled license file for: ".toList ++ join ", ".toList (sortedBy id missing) ++
      " — collect it manually.".toList)
  else pure ()

section

variable (u : Unicode) (hostname : Str → Result (Option Str))

def checkLicenseFamiliesRecognized (packages : List Package) : Script Unit :=
  let unrecognized := (packages.filter fun pkg => familyOf u pkg = otherLicenses).map (·.name)
  if unrecognized ≠ [] then
    exit ("ERROR: unrecognized license family for: ".toList ++ join ", ".toList (sortedBy id unrecognized) ++
      " — vet the license and extend LICENSE_FAMILIES.".toList)
  else pure ()

def uvLicensePresent (repoRoot : TreePath) : Script Bool := do
  let t ← get
  let uvDir := repoRoot ++ ["licensing".toList, "uv".toList]
  if t.isDir uvDir then
    let missing := ["LICENSE-APACHE".toList, "LICENSE-MIT".toList].filter fun n => !t.isFile (uvDir ++ [n])
    if missing ≠ [] then
      exit ("ERROR: licensing/uv/ is missing ".toList ++ join ", ".toList (sortedBy id missing) ++
        " — the generated NOTICE references these files.".toList)
    else pure true
  else pure false

/-- The packages that the container printed, or the message of the failure. -/
def extract (run : Except Str (List Package)) : Script (List Package) :=
  match run with
  | .error message => exit message
  | .ok payload => pure (sortedByName u payload)

structure Args where
  cloud : Cloud
  image : Str
  check : Bool

/-- `main` up to the line it prints. -/
def main (repoRoot : TreePath) (args : Args) (run : Except Str (List Package)) : Script Str := do
  let packages ← extract u run
  checkLicensesPresent packages
  checkLicenseFamiliesRecognized u packages
  let hasUv ← uvLicensePresent repoRoot
  let cloud := args.cloud.text
  let outDir := repoRoot ++ ["licensing".toList, cloud]
  let outputs ← ofResult (buildOutputs u hostname cloud packages hasUv)
  if args.check then
    let drift ← ofStop (findDrift (← get) outDir outputs)
    if drift ≠ [] then
      exit ("ERROR: licensing/".toList ++ cloud ++ "/ is stale relative to the built image.\n".toList ++
        "Regenerate and commit:\n  python scripts/gen_licenses.py --cloud ".toList ++ cloud ++
        " --image ".toList ++ args.image ++ "\n".toList ++
        join "\n".toList (drift.map fun d => "  ".toList ++ d))
    else pure (cloud ++ ": license artifacts match the built image.".toList)
  else
    writeOutputs outDir outputs
    pure (cloud ++ ": ".toList ++ Nat.toDigits 10 packages.length ++ " packages + ".toList ++
      (if hasUv then "uv".toList else "no uv".toList) ++ " -> /".toList ++ pathText outDir)

end

end LlmWorker.Licenses
