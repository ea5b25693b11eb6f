import PackageAudit.Check.Basic
import PackageAudit.Settings

/-! # Checks of the manifest
-/

namespace PackageAudit.Check

/-- The text that a member of the manifest holds, unless it is blank. -/
def declared? (manifest : Json.Members) (name : Text) : Option Text :=
  (manifest.text? name).filter fun t => !t.isBlank

/-- The manifest has to declare a name and a version. -/
def manifestDeclares (s : Settings) (p : Package) : Outcome :=
  match declared? p.manifest "name", declared? p.manifest "version" with
  | some name, some version =>
    ((Outcome.passed (s.manifestName ++ " exists and is valid")).about s.manifestName).detailed
      [("name", .str name), ("version", .str version)]
  | name, version =>
    let fields : List (Text × Bool) := [("name", name.isNone), ("version", version.isNone)]
    let missing := (fields.filter (·.2)).map (·.1)
    let message := s.manifestName ++ " is missing required fields: " ++ Text.join ", " missing
    ((Outcome.failed message).about s.manifestName).detailed
      [("missing_fields", Json.ofTexts missing)]

/-- The build script that the manifest declares. -/
def buildScript? (manifest : Json.Members) : Option Text :=
  (manifest.members? "scripts").bind fun scripts => declared? scripts "build"

/-- The manifest has to declare a build script. -/
def buildScriptDeclared (s : Settings) (p : Package) : Outcome :=
  match buildScript? p.manifest with
  | some script => (Outcome.passed ("Build script found: " ++ script)).about s.manifestName
  | none => (Outcome.failed (s.manifestName ++ " is missing a build script")).about s.manifestName

end PackageAudit.Check
