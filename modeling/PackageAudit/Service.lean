import PackageAudit.Audit
import PackageAudit.Batch
import PackageAudit.Package.Search
import PackageAudit.Repair.Run
import PackageAudit.Report.Survey
import PackageAudit.Rule.Builtin

/-! # The audit service

What the audit offers as a whole: batches, all packages below a directory, repairs with an audit
before and after them, and a look at its own state.
-/

namespace PackageAudit

/-- An auditor and the remedies for what it finds. -/
structure Service where
  auditor : Auditor
  remedies : Remedies

namespace Service

/-- A service with a catalog and the remedies that come with the audit. -/
def new (s : Settings) (catalog : Catalog) : Service := ⟨⟨s, catalog, none⟩, .builtin⟩

/-- The report on one package. -/
def audit (sv : Service) (t : Tree) (path : Text) (o : AuditOptions) : Except Failure Report :=
  sv.auditor.audit t path o

/-- Audits the packages that paths stand for. -/
def auditBatch (sv : Service) (t : Tree) (schedule : Batch.Schedule) (o : Batch.Options)
    (audit : AuditOptions) (paths : List Text) : Batch.Ledger × Option Failure :=
  Batch.run (fun path => (sv.audit t path audit).mapError Failure.message) schedule
    sv.auditor.settings.maxParallel o paths

/-- How packages are searched when nothing is said about it. -/
def searchOptions (sv : Service) : SearchOptions :=
  { SearchOptions.default with maxDepth := sv.auditor.settings.maxDepth }

/-- The paths of all packages below a directory; having none is a failure. -/
def packagesBelow (sv : Service) (t : Tree) (root : Text) (o : Option SearchOptions) :
    Except Fault (List Text) := do
  let found ← search t sv.auditor.settings root (o.getD sv.searchOptions) false
  if found.isEmpty then throw (.failure (.nothingFound root))
  return found.map (·.toText)

/-- Repairs violations of one package. -/
def repair (sv : Service) (b : Bench) (path : Text) (violations : List Verdict)
    (o : RepairOptions) : Bench × Except Fault RepairSummary :=
  PackageAudit.repair sv.auditor.catalog sv.remedies sv.auditor.settings b path violations o

/-- Audits a package, repairs what can be repaired and audits it again. If nothing was repaired the
first report is the answer; else the second one, with its changes from the first. -/
def fix (sv : Service) (b : Bench) (path : Text) (audit : AuditOptions) (o : RepairOptions) :
    Bench × Except Fault (RepairSummary × Report) :=
  match sv.audit b.tree path audit with
  | .error f => (b, .error (.failure f))
  | .ok before =>
    match sv.repair b path before.fixableViolations o with
    | (b, .error f) => (b, .error f)
    | (b, .ok summary) =>
      if o.dryRun || summary.ending .success == 0 then (b, .ok (summary, before))
      else
        match sv.audit b.tree path audit with
        | .error f => (b, .error (.failure f))
        | .ok after => (b, .ok (summary, { after with changes := some (after.changesFrom before) }))

/-- The version of the audit. -/
def version : Text := "0.1.0"

/-- The rules without a check. -/
def unimplemented (sv : Service) : List Text :=
  (sv.auditor.catalog.rules.filter fun r => (sv.auditor.catalog.check? r.id).isNone).map (·.id)

/-- What a service tells about itself. -/
structure Health where
  version : Text
  rules : Nat
  enabledRules : Nat
  strategies : Nat
  /-- The rules without a check. -/
  unimplemented : List Text
  frozen : Bool
deriving DecidableEq

/-- A service is healthy if every rule has a check. -/
def Health.status (h : Health) : Text :=
  if h.unimplemented.isEmpty then "healthy" else "degraded"

/-- The state of a service. -/
def health (sv : Service) : Health where
  version := version
  rules := sv.auditor.catalog.rules.length
  enabledRules := sv.auditor.catalog.rules.countP (·.enabled)
  strategies := sv.auditor.catalog.strategies.length
  unimplemented := sv.unimplemented
  frozen := sv.auditor.catalog.frozen

end Service

end PackageAudit
