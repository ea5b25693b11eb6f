import PackageAudit.Check.Manifest
import PackageAudit.Check.MockData
import PackageAudit.Check.Secrets

/-! # The checks that come with the audit
-/

namespace PackageAudit

/-- The checks that come with the audit. -/
inductive BuiltinCheck where
  | manifestValid
  | readmeExists
  | typeConfig
  | testDirectory
  | buildScript
  | ignoreFile
  | noMockData
  | fileSize
  | securityConfig
deriving Repr, DecidableEq

namespace BuiltinCheck

def all : List BuiltinCheck :=
  [manifestValid, readmeExists, typeConfig, testDirectory, buildScript, ignoreFile, noMockData,
    fileSize, securityConfig]

/-- The name that a check is asked for by. -/
def name : BuiltinCheck → Text
  | manifestValid => "check_manifest_valid"
  | readmeExists => "check_readme_exists"
  | typeConfig => "check_type_config"
  | testDirectory => "check_test_directory"
  | buildScript => "check_build_script"
  | ignoreFile => "check_ignore_file"
  | noMockData => "check_no_mock_data"
  | fileSize => "check_file_size"
  | securityConfig => "check_security_config"

/-- What a check finds. -/
def outcome (s : Settings) (t : Tree) (p : Package) : BuiltinCheck → Except Fault Outcome
  | manifestValid => .ok (Check.manifestDeclares s p)
  | readmeExists => Check.readmeLongEnough s t p
  | typeConfig => Check.typeConfigDeclares s t p
  | testDirectory => .ok (Check.testFolderFilled p)
  | buildScript => .ok (Check.buildScriptDeclared s p)
  | ignoreFile => .ok (Check.ignoreFilePresent s p)
  | noMockData => Check.noMockData t p
  | fileSize => .ok (Check.filesSmallEnough s p)
  | securityConfig => Check.noSecrets t p

/-- A check with its settings. -/
def run (c : BuiltinCheck) (s : Settings) : Check := fun t p => .ofExcept (c.outcome s t p)

end BuiltinCheck

end PackageAudit
