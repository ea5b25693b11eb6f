import PackageAudit.Repair.Backup
import PackageAudit.Repair.Remedies
import PackageAudit.Rule.Catalog

/-! # Running repairs

Violations are taken in order. Each is skipped unless it can be repaired, passes the filters, is not
too risky and has a remedy; then its plan is made, counted against the limit on files and carried
out. A remedy that gives up, or a file that cannot be written, makes the repair of that violation
fail and the run goes on. Any other fault ends the run; what was written until then stays.
-/

namespace PackageAudit

namespace Repair

/-- What stays the same during a run. -/
structure Plan where
  catalog : Catalog
  remedies : Remedies
  settings : Settings
  root : Path
  options : RepairOptions

namespace Plan

/-- Where backups go. -/
def backupFolder (p : Plan) : Path :=
  p.root.join (p.options.backupDirectory.getD p.settings.backupDirectory)

/-- The most files that are written. -/
def limit (p : Plan) : Int := p.options.maxFiles.getD p.settings.maxFilesToFix

end Plan

/-! ## Carrying out a plan -/

/-- Writes the content of an action. A text without a UTF-8 form leaves an empty file. -/
def writeContent (b : Bench) (target : Path) (content : Text) : Bench × Option FileFault :=
  match Utf8.encode content with
  | .ok bytes =>
    match b.tree.write target bytes with
    | .ok t => (b.withTree t, none)
    | .error f => (b, some f)
  | .error e =>
    match b.tree.write target [] with
    | .ok t => (b.withTree t, some (.unencodable e))
    | .error f => (b, some f)

/-- Makes the directory of a file and writes the file. -/
def writeFile (b : Bench) (target : Path) (content : Text) : Bench × Option FileFault :=
  match b.tree.makeFolders target.parent with
  | (t, some f) => (b.withTree t, some f)
  | (t, none) => writeContent (b.withTree t) target content

/-- Writes a file after its old content, if there is any, was copied to the backups. The answer is
where the old content went. -/
def writeOver (p : Plan) (b : Bench) (path content : Text) :
    Bench × Except FileFault (Option Text) :=
  let target := p.root.join (.ofText path)
  let finish (r : Bench × Option FileFault) (kept : Option Text) :
      Bench × Except FileFault (Option Text) :=
    match r with
    | (b, none) => (b, .ok kept)
    | (b, some f) => (b, .error f)
  if p.options.backupFiles then
    match b.tree.isFile target with
    | .error f => (b, .error f)
    | .ok false => finish (writeFile b target content) none
    | .ok true =>
      match b.backUp p.root path p.backupFolder with
      | (b, .error f) => (b, .error f)
      | (b, .ok copyPath) => finish (writeFile b target content) (some copyPath.toText)
  else finish (writeFile b target content) none

/-- Carries out one action; the answer is where the old content of the file went, if it was kept. -/
def perform (p : Plan) (b : Bench) (a : Action) : Bench × Except FileFault (Option Text) :=
  match a.path, a.content with
  | none, _ => (b, .error .noPath)
  | some path, some content => writeOver p b path content
  | some path, none =>
    match b.tree.makeFolders (p.root.join (.ofText path)) with
    | (t, none) => (b.withTree t, .ok none)
    | (t, some f) => (b.withTree t, .error f)

/-- Carries out actions until one fails. A refusal of the file system is a failure of the repair;
the first backup that was made is remembered. -/
def performAll (p : Plan) (ruleId : Text) (b : Bench) (kept : Option Text) :
    List Action → Bench × Except Fault (Option Text)
  | [] => (b, .ok kept)
  | a :: rest =>
    match perform p b a with
    | (b, .ok backup) => performAll p ruleId b (kept.or backup) rest
    | (b, .error f) =>
      if f.isRefusal then
        let reason := "cannot write " ++ a.path.getD [] ++ ": " ++ f.message
        (b, .error (.failure (.repairFailed ruleId reason)))
      else (b, .error (.file f))

/-! ## One violation -/

/-- The outcome of a violation that is not repaired. -/
def skip (risk : Risk) (v : Verdict) (reason : Text) : RepairOutcome :=
  ⟨v.ruleId, .skipped, risk, v.filePath, [], none, some reason⟩

/-- The outcome of a repair that failed. -/
def failed (risk : Risk) (v : Verdict) (f : Failure) (path : Option Text) : RepairOutcome :=
  ⟨v.ruleId, .failed, risk, (path.filter (· ≠ [])).or v.filePath, [], none, some f.message⟩

/-- Why a violation is not repaired in a tree, if it is not. -/
def gate (p : Plan) (t : Tree) (risk : Risk) (v : Verdict) : Option Text :=
  let o := p.options
  if v.status ≠ .fail ∨ v.canAutoFix = false then
    some ("Not auto-fixable (status " ++ v.status.name ++ ")")
  else if !o.included.isEmpty && !o.included.contains v.ruleId then some "Rule not in include list"
  else if o.excluded.contains v.ruleId then some "Rule excluded"
  else if risk = .high ∧ o.aggressive = false then some "High-risk fix requires aggressive mode"
  else if risk = .high ∧ (o.confirms.map fun c => c t v) = some false then
    some "High-risk fix not confirmed"
  else none

/-- The files that a plan writes. -/
def targets (actions : List Action) : List (Option Text) :=
  (actions.filter (·.content.isSome)).map (·.path)

/-- Files that were counted already together with new ones, once each. -/
def addTargets (touched : List (Option Text)) (actions : List Action) : List (Option Text) :=
  (targets actions).foldl (fun seen x => if seen.contains x then seen else seen ++ [x]) touched

/-- A run so far: the bench and the files that were counted against the limit. -/
structure Progress where
  bench : Bench
  touched : List (Option Text)
deriving DecidableEq

/-- Carries out the plan for a violation, unless it would go over the limit. -/
def carryOut (p : Plan) (s : Progress) (risk : Risk) (v : Verdict) (actions : List Action) :
    Progress × Except Fault RepairOutcome :=
  let touched := addTargets s.touched actions
  if p.limit < touched.length then
    (s, .ok (skip risk v ("File limit reached (" ++ Text.ofInt p.limit ++ " files)")))
  else
    let main := (targets actions).head?.getD v.filePath
    let done (backup : Option Text) : RepairOutcome :=
      let applied : List Text :=
        if actions.isEmpty then ["Nothing to change"] else actions.map (·.description)
      ⟨v.ruleId, .success, risk, main, applied, backup, none⟩
    if p.options.dryRun then (⟨s.bench, touched⟩, .ok (done none))
    else
      match performAll p v.ruleId s.bench none actions with
      | (b, .ok backup) => (⟨b, touched⟩, .ok (done backup))
      | (b, .error (.failure (.repairFailed rule reason))) =>
        (⟨b, touched⟩, .ok (failed risk v (.repairFailed rule reason) main))
      | (b, .error f) => (⟨b, touched⟩, .error f)

/-- Repairs one violation. -/
def repairOne (p : Plan) (s : Progress) (v : Verdict) : Progress × Except Fault RepairOutcome :=
  let risk := p.catalog.risk v.ruleId
  match gate p s.bench.tree risk v with
  | some reason => (s, .ok (skip risk v reason))
  | none =>
    match p.remedies.find? v.ruleId with
    | none => (s, .ok (skip risk v "No automated fix available; marked for manual resolution"))
    | some remedy =>
      match remedy ⟨s.bench.tree, p.root, p.settings⟩ v with
      | .error (.failure (.repairFailed rule reason)) =>
        (s, .ok (failed risk v (.repairFailed rule reason) none))
      | .error f => (s, .error f)
      | .ok actions => carryOut p s risk v actions

/-- Repairs violations in order. -/
def repairAll (p : Plan) (s : Progress) :
    List Verdict → Progress × Except Fault (List RepairOutcome)
  | [] => (s, .ok [])
  | v :: vs =>
    match repairOne p s v with
    | (s, .error f) => (s, .error f)
    | (s, .ok o) =>
      match repairAll p s vs with
      | (s, .error f) => (s, .error f)
      | (s, .ok os) => (s, .ok (o :: os))

end Repair

/-- Repairs violations of the package that a path stands for. -/
def repair (cat : Catalog) (remedies : Remedies) (s : Settings) (b : Bench) (path : Text)
    (violations : List Verdict) (o : RepairOptions) : Bench × Except Fault RepairSummary :=
  match b.tree.resolve (.ofText path) with
  | .error f => (b, .error (.file f))
  | .ok root =>
    let p : Repair.Plan := ⟨cat, remedies, s, root, o⟩
    match Repair.repairAll p ⟨b, []⟩ violations with
    | (s, .error f) => (s.bench, .error f)
    | (s, .ok outcomes) =>
      (s.bench, .ok ⟨root.toText, o.dryRun, violations.length, outcomes⟩)

end PackageAudit
