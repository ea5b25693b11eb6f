import PackageAudit.Fault
import PackageAudit.Tree.Access

/-! # Backups

A file that is about to be overwritten is copied into the backup directory under its path, slashes
written as two underscores, followed by a stamp that no other backup has. `Bench` is the tree
together with the next stamp.
-/

namespace PackageAudit

/-- A tree and the number of the next stamp. -/
structure Bench where
  tree : Tree
  clock : Nat
deriving DecidableEq

/-- A stamp in the form of a date and a time of day; later stamps come later in text order. -/
def stampText (n : Nat) : Text :=
  let digits := Text.ofNat n
  let padded := Text.zeros (20 - digits.length) ++ digits
  padded.take 8 ++ "T" ++ padded.drop 8

/-- The name of the backup of a file. -/
def backupName (path : Text) (stamp : Nat) : Text :=
  path.replaceEach Path.slash "__" ++ "." ++ stampText stamp ++ ".backup"

namespace Bench

/-- The bench with another tree. -/
def withTree (b : Bench) (t : Tree) : Bench := { b with tree := t }

/-- Copies a file of the package at `root` into the backup directory. The answer is where it
went. -/
def backUp (b : Bench) (root : Path) (path : Text) (folder : Path) :
    Bench × Except FileFault Path :=
  let copyPath : Path := ⟨folder.anchor, folder.parts ++ [backupName path b.clock]⟩
  let b := { b with clock := b.clock + 1 }
  match b.tree.makeFolders folder with
  | (t, some f) => (b.withTree t, .error f)
  | (t, none) =>
    match t.copy (root.join (.ofText path)) copyPath.toText with
    | .error f => (b.withTree t, .error f)
    | .ok t => (b.withTree t, .ok copyPath)

end Bench

/-- Copies a backup over a file. -/
def restore (t : Tree) (backup target : Text) : Except Fault Tree :=
  let p := Path.ofText backup
  match t.isFile p with
  | .error f => .error (.file f)
  | .ok false => .error (.failure (.repairFailed "restore" ("backup not found: " ++ p.toText)))
  | .ok true =>
    match t.copy p target with
    | .error f => .error (.file f)
    | .ok t => .ok t

end PackageAudit
