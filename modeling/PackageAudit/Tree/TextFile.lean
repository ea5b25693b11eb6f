import PackageAudit.Tree.Access
import PackageAudit.Text.Lines

/-! # Text files

A text file is strict UTF-8; its line ends are made uniform when it is read.
-/

namespace PackageAudit

/-- Why a text file cannot be read. -/
inductive TextFault where
  | file (f : FileFault)
  | undecodable (e : Utf8.DecodeError)

namespace Tree

/-- The text of a file. -/
def readText (t : Tree) (p : Path) : Except TextFault Text :=
  match t.read p with
  | .error f => .error (.file f)
  | .ok bytes =>
    match Utf8.decode bytes with
    | .error e => .error (.undecodable e)
    | .ok text => .ok text.uniformLineEnds

/-- The text of a file that may be missing or unreadable. Faults that lie in the path are kept. -/
def readTextIfAny (t : Tree) (p : Path) : Except FileFault (Option Text) :=
  match t.readText p with
  | .ok text => .ok (some text)
  | .error (.undecodable _) => .ok none
  | .error (.file f) => if f.isRefusal then .ok none else .error f

end Tree

end PackageAudit
