import PackageAudit.Package.Basic

/-! # Rules

A rule names something that packages have to comply with. It says how bad a violation is, which
packages it is about, and whether and at what risk a violation can be repaired automatically. The
check that decides it is registered apart from it.
-/

namespace PackageAudit

/-- The aspect of a package that a rule governs. -/
inductive Category where
  | structural
  | documentation
  | configuration
  | testing
  | security
  | performance
deriving Repr, DecidableEq

namespace Category

def all : List Category :=
  [structural, documentation, configuration, testing, security, performance]

def name : Category → Text
  | structural => "structure"
  | documentation => "documentation"
  | configuration => "configuration"
  | testing => "testing"
  | security => "security"
  | performance => "performance"

end Category

/-- How serious a violation is. -/
inductive Severity where
  | warning
  | error
  | critical
  /-- Trivial, and repaired mechanically. -/
  | autoFix
deriving Repr, DecidableEq

namespace Severity

def all : List Severity := [warning, error, critical, autoFix]

def name : Severity → Text
  | warning => "WARNING"
  | error => "ERROR"
  | critical => "CRITICAL"
  | autoFix => "AUTO_FIX"

end Severity

/-- How likely an automatic repair is to have side effects. -/
inductive Risk where
  | low
  | medium
  | high
deriving Repr, DecidableEq

namespace Risk

def all : List Risk := [low, medium, high]

def name : Risk → Text
  | low => "low"
  | medium => "medium"
  | high => "high"

end Risk

/-- The packages that a rule is about. -/
structure Applicability where
  /-- The kinds; all kinds if none is named. -/
  kinds : List PackageKind
  /-- Packages that are accepted whatever their kind. -/
  included : List Text
  /-- Packages that are never accepted. -/
  excluded : List Text
deriving DecidableEq

namespace Applicability

/-- Every package. -/
def everywhere : Applicability := ⟨[], [], []⟩

/-- Is a package of this kind and name accepted? -/
def accepts (a : Applicability) (kind : PackageKind) (id : Text) : Bool :=
  if a.excluded.contains id then false
  else if a.included.contains id then true
  else a.kinds.isEmpty || a.kinds.contains kind

/-- Reads a record of accepted packages. -/
def read (ms : Json.Members) : Checked Applicability :=
  Applicability.mk
    <$> Schema.defaulted ms "module_types"
      (Schema.list (Schema.oneOf PackageKind.all PackageKind.name)) []
    <*> Schema.defaulted ms "module_ids" (Schema.list Schema.text) []
    <*> Schema.defaulted ms "excluded_module_ids" (Schema.list Schema.text) []

end Applicability

/-- A rule. -/
structure Rule where
  id : Text
  name : Text
  description : Text
  category : Category
  severity : Severity
  applicability : Applicability
  enabled : Bool
  remediation : Text
  canAutoFix : Bool
  risk : Risk
  tags : List Text
deriving DecidableEq

namespace Rule

/-- Does the rule concern a package of this kind and name? -/
def concerns (r : Rule) (kind : PackageKind) (id : Text) : Bool :=
  r.enabled && r.applicability.accepts kind id

/-- Is the rule checked for a package? -/
def appliesTo (r : Rule) (p : Package) : Bool := r.concerns p.kind p.id

/-- Reads a rule record. -/
def read (ms : Json.Members) : Checked Rule :=
  Rule.mk
    <$> Schema.required ms "rule_id" Schema.text
    <*> Schema.required ms "name" Schema.text
    <*> Schema.defaulted ms "description" Schema.text ""
    <*> Schema.required ms "category" (Schema.oneOf Category.all Category.name)
    <*> Schema.required ms "severity" (Schema.oneOf Severity.all Severity.name)
    <*> Schema.defaulted ms "applicability" (Schema.record Applicability.read) .everywhere
    <*> Schema.defaulted ms "enabled" Schema.truth true
    <*> Schema.defaulted ms "remediation" Schema.text ""
    <*> Schema.defaulted ms "can_auto_fix" Schema.truth false
    <*> Schema.defaulted ms "risk_level" (Schema.oneOf Risk.all Risk.name) .medium
    <*> Schema.defaulted ms "tags" (Schema.list Schema.text) []

end Rule

end PackageAudit
