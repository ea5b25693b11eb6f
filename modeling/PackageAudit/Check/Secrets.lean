import PackageAudit.Check.Documents

/-! # Secrets

Configuration and source files must not hold literal credentials: a telling key, a colon or an
equals sign, and a quoted value that is long enough. Only the place and the kind of a finding are
kept, never the value.
-/

namespace PackageAudit.Check

/-- A kind of credential: its name, the parts of its key, between which a hyphen or an underscore
may stand, and the least length of its value. -/
structure SecretKind where
  name : Text
  key : Text
  keyEnd : Option Text
  minLength : Nat

/-- The kinds of credentials that are looked for. -/
def secretKinds : List SecretKind :=
  [⟨"password", "password", none, 8⟩, ⟨"secret", "secret", none, 10⟩,
    ⟨"api_key", "api", some "key", 15⟩, ⟨"token", "token", none, 20⟩,
    ⟨"private_key", "private", some "key", 50⟩]

namespace SecretKind

/-- What is left behind the key. -/
def afterKey? (k : SecretKind) (t : Text) : Option Text := do
  let rest ← t.afterWord? k.key
  match k.keyEnd with
  | none => return rest
  | some keyEnd => (rest.skipOne fun c => c.val == 95 || c.val == 45).afterWord? keyEnd

/-- What is left behind a colon or an equals sign and an opening quote. -/
def afterAssignment? (t : Text) : Option Text := do
  let rest ← t.skipBlanks.afterOne? fun c => c.val == 58 || c.val == 61
  rest.skipBlanks.afterOne? CodePoint.isQuote

/-- Does the text begin with a value that is long enough and a closing quote? -/
def closesAfterValue (k : SecretKind) (t : Text) : Bool :=
  let value := t.takeWhile fun c => !c.isQuote
  k.minLength ≤ value.length && value.length < t.length

/-- Does a credential of this kind begin here? -/
def startsHere (k : SecretKind) (t : Text) : Bool :=
  match (k.afterKey? t).bind afterAssignment? with
  | some value => k.closesAfterValue value
  | none => false

/-- Is there a credential of this kind on the line? -/
def onLine (k : SecretKind) (line : Text) : Bool := line.anywhere k.startsHere

end SecretKind

/-- The endings of the files that are looked at. -/
def secretSuffixes : List Text := [".json", ".js", ".ts", ".env"]

/-- Is the file looked at? -/
def isSecretScanned (f : PackageFile) : Bool :=
  Listing.isEnvironmentFile f.name || secretSuffixes.contains f.suffix

/-- A credential: the first line of a file that holds one of its kind. -/
structure SecretFinding where
  file : Text
  line : Nat
  kind : Text

/-- The record of a finding. -/
def SecretFinding.record (x : SecretFinding) : Json :=
  .obj [("file", .str x.file), ("line", .ofNat x.line), ("kind", .str x.kind)]

/-- What is found in the text of a file, in the order of the kinds. -/
def secretsIn (path text : Text) : List SecretFinding :=
  let lines := text.lines
  secretKinds.filterMap fun k => (lines.findIdx? k.onLine).map fun i => ⟨path, i + 1, k.name⟩

/-- All that is found, in the order of the files. -/
def secretFindings (t : Tree) (p : Package) : Except Fault (List SecretFinding) := do
  let found ← (p.regularFiles.filter isSecretScanned).mapM fun f => do
    match ← textOf t p f.path with
    | none => return []
    | some text => return secretsIn f.path text
  return found.flatten

/-- The outcome for the findings. -/
def secretOutcome : List SecretFinding → Outcome
  | [] => .passed "No sensitive data detected in configuration files"
  | first :: rest =>
    (((Outcome.failed ("Potential sensitive data in: " ++ first.file)).about first.file).atLine
      first.line).detailed [("findings", .arr ((first :: rest).map SecretFinding.record))]

/-- No file may hold literal credentials. -/
def noSecrets (t : Tree) (p : Package) : Except Fault Outcome := do
  return secretOutcome (← secretFindings t p)

end PackageAudit.Check
