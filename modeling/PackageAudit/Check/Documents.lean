import PackageAudit.Check.Basic
import PackageAudit.Package.Describe
import PackageAudit.Text.Pattern

/-! # Checks of the files that describe a package
-/

namespace PackageAudit.Check

/-- The text of a file of a package, if it can be read. -/
def textOf (t : Tree) (p : Package) (path : Text) : Except Fault (Option Text) :=
  liftFile (t.readTextIfAny (p.root.join (.ofText path)))

/-- The top-level file that is named like the readme, up to case. -/
def readme? (s : Settings) (p : Package) : Option PackageFile :=
  p.regularFiles.find? fun f => f.isTopLevel && f.path.lower == s.readmeName.lower

/-- The readme has to be there and to be long enough, not counting blanks at its ends. -/
def readmeLongEnough (s : Settings) (t : Tree) (p : Package) : Except Fault Outcome := do
  match readme? s p with
  | none => return (Outcome.failed (s.readmeName ++ " file is missing")).about s.readmeName
  | some f =>
    let text ← textOf t p f.path
    let length := (text.getD []).trim.length
    if length < s.readmeMinLength then
      let message := f.path ++ " exists but is too short (" ++ Text.ofNat length ++ " < " ++
        Text.ofNat s.readmeMinLength ++ " characters)"
      let found : Outcome := (Outcome.failed message).about f.path
      return (found.detailed [("length", .ofNat length)]).unfixable
    else return (Outcome.passed (f.path ++ " exists and has adequate content")).about f.path

/-- Does a member named `compilerOptions`, in quotes of either kind, begin here? -/
def compilerOptionsHere (t : Text) : Bool :=
  let value := do
    let name ← t.afterOne? CodePoint.isQuote
    let quote ← name.afterWord? "compileroptions"
    let rest ← quote.afterOne? CodePoint.isQuote
    rest.skipBlanks.afterOne? (·.val == 58)
  value.isSome

/-- The type configuration has to be there and to declare compiler options. A missing or blank one
can be repaired. -/
def typeConfigDeclares (s : Settings) (t : Tree) (p : Package) : Except Fault Outcome := do
  let name := s.typeConfigName
  let failed (what : Text) : Outcome := (Outcome.failed (name ++ what)).about name
  if !p.hasFile name then return failed " file is missing"
  let text ← textOf t p name
  match text.filter fun text => !text.isBlank with
  | none => return failed " exists but is empty"
  | some text =>
    if text.anywhere compilerOptionsHere then
      return (Outcome.passed (name ++ " exists and has compilerOptions")).about name
    else return (failed " exists but is missing compilerOptions").unfixable

end PackageAudit.Check
