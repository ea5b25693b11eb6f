import PackageAudit.Schema

/-! # Packages

A package is a directory with a manifest, described once and then looked at by every check: its
name, kind and version, what the manifest says, and the list of its files and directories.
-/

namespace PackageAudit

/-- The part that a package plays. -/
inductive PackageKind where
  | backend
  | frontend
  | utility
  | api
  | core
deriving Repr, DecidableEq

namespace PackageKind

def all : List PackageKind := [backend, frontend, utility, api, core]

def name : PackageKind → Text
  | backend => "backend"
  | frontend => "frontend"
  | utility => "utility"
  | api => "api"
  | core => "core"

end PackageKind

/-- A file or directory of a package. -/
structure PackageFile where
  /-- The path from the package's root, names separated by slashes. -/
  path : Text
  isFolder : Bool
  size : Int
  lineCount : Option Int
  generated : Bool
deriving DecidableEq

namespace PackageFile

/-- The last part of the path. -/
def name (f : PackageFile) : Text := f.path.afterLast Path.slash

/-- The ending of the path in lower case. -/
def suffix (f : PackageFile) : Text := (Path.ofText f.path).suffix.lower

/-- Does the file lie directly in the package's root? -/
def isTopLevel (f : PackageFile) : Bool := !f.path.contains Path.slash

/-- Reads a file record. -/
def read (ms : Json.Members) : Checked PackageFile :=
  PackageFile.mk
    <$> Schema.required ms "path" Schema.text
    <*> Schema.defaulted ms "is_dir" Schema.truth false
    <*> Schema.defaulted ms "size" Schema.integer 0
    <*> Schema.defaulted ms "line_count" (Schema.nullable Schema.integer) none
    <*> Schema.defaulted ms "generated" Schema.truth false

end PackageFile

/-- The description of a package. -/
structure Package where
  id : Text
  name : Text
  /-- The absolute path of the package's root. -/
  path : Text
  kind : PackageKind
  version : Text
  description : Text
  manifest : Json.Members
  files : List PackageFile
  /-- A first score from the layout alone. -/
  layoutScore : Nat

namespace Package

/-- The path of the package's root. -/
def root (p : Package) : Path := .ofText p.path

/-- Is there a regular file with this path? -/
def hasFile (p : Package) (path : Text) : Bool :=
  p.files.any fun f => f.path == path && !f.isFolder

/-- Is there a directory with this path? -/
def hasFolder (p : Package) (path : Text) : Bool :=
  p.files.any fun f => f.path == path && f.isFolder

/-- The files that are no directories. -/
def regularFiles (p : Package) : List PackageFile := p.files.filter fun f => !f.isFolder

/-- Reads a package record. -/
def read (ms : Json.Members) : Checked Package :=
  Package.mk
    <$> Schema.required ms "module_id" Schema.text
    <*> Schema.required ms "name" Schema.text
    <*> Schema.required ms "path" Schema.text
    <*> Schema.defaulted ms "module_type" (Schema.oneOf PackageKind.all PackageKind.name) .utility
    <*> Schema.defaulted ms "version" Schema.text "0.0.0"
    <*> Schema.defaulted ms "description" Schema.text ""
    <*> Schema.defaulted ms "manifest" Schema.members []
    <*> Schema.defaulted ms "files" (Schema.list (Schema.record PackageFile.read)) []
    <*> Schema.defaulted ms "compliance_score" Schema.percentage 0

end Package

end PackageAudit
