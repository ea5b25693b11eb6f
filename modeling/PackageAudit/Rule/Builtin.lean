import PackageAudit.Check.Builtin
import PackageAudit.Rule.Catalog

/-! # The rules that come with the audit
-/

namespace PackageAudit

namespace BuiltinCheck

/-- The rule that a check decides. -/
def rule : BuiltinCheck → Rule
  | manifestValid => {
      id := "MANIFEST_VALID", name := "Valid manifest"
      description := "Module manifest exists, parses and declares a name and version"
      category := .configuration, severity := .critical
      applicability := .everywhere, enabled := true
      remediation := "Declare name and version in the module manifest"
      canAutoFix := true, risk := .low, tags := ["manifest"] }
  | readmeExists => {
      id := "README_EXISTS", name := "README present"
      description := "Module has a README with meaningful content"
      category := .documentation, severity := .error
      applicability := .everywhere, enabled := true
      remediation := "Create a README with module description, installation and usage instructions"
      canAutoFix := true, risk := .low, tags := ["docs"] }
  | typeConfig => {
      id := "TYPE_CONFIG_REQUIRED", name := "Type configuration"
      description := "Module has a type configuration declaring compiler options"
      category := .configuration, severity := .error
      applicability := .everywhere, enabled := true
      remediation := "Create a type configuration with target, module and strict settings"
      canAutoFix := true, risk := .medium, tags := ["typescript"] }
  | testDirectory => {
      id := "TEST_DIRECTORY_REQUIRED", name := "Test directory"
      description := "Module has a conventional test directory with test files"
      category := .testing, severity := .warning
      applicability := .everywhere, enabled := true
      remediation := "Create a tests/ directory with test files"
      canAutoFix := true, risk := .low, tags := ["tests"] }
  | buildScript => {
      id := "BUILD_SCRIPT_REQUIRED", name := "Build script"
      description := "Module manifest declares a build script"
      category := .configuration, severity := .error
      applicability := .everywhere, enabled := true
      remediation := "Add a build script to the manifest scripts section"
      canAutoFix := true, risk := .medium, tags := ["manifest", "build"] }
  | ignoreFile => {
      id := "IGNORE_FILE_REQUIRED", name := "Ignore file"
      description := "Module has a VCS ignore file"
      category := .configuration, severity := .warning
      applicability := .everywhere, enabled := true
      remediation := "Create an ignore file excluding dependencies, build output and logs"
      canAutoFix := true, risk := .low, tags := ["vcs"] }
  | noMockData => {
      id := "NO_MOCK_DATA", name := "No mock data"
      description := "No mock, fake or placeholder data outside test files"
      category := .structural, severity := .critical
      applicability := .everywhere, enabled := true
      remediation := "Remove mock data and use real data sources"
      canAutoFix := false, risk := .high, tags := ["data"] }
  | fileSize => {
      id := "FILE_SIZE_LIMIT", name := "File size limit"
      description := "No hand-written source file exceeds the line limit"
      category := .performance, severity := .warning
      applicability := .everywhere, enabled := true
      remediation := "Refactor large files into smaller modules"
      canAutoFix := false, risk := .medium, tags := ["size"] }
  | securityConfig => {
      id := "SECURITY_CONFIG_CHECK", name := "No hard-coded secrets"
      description := "No credential-like literals in configuration or source files"
      category := .security, severity := .critical
      applicability := .everywhere, enabled := true
      remediation := "Remove hard-coded secrets and read them from environment variables"
      canAutoFix := false, risk := .high, tags := ["secrets"] }

end BuiltinCheck

/-- The catalog of the rules that come with the audit, with their checks. -/
def Catalog.builtin (s : Settings) : Catalog where
  rules := BuiltinCheck.all.map BuiltinCheck.rule
  checks := BuiltinCheck.all.map fun c => (c.rule.id, c.run s)
  frozen := false

end PackageAudit
