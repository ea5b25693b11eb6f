import PackageAudit.Json.Reader
import PackageAudit.Tree.TextFile

/-! # Manifests

A manifest is a text file that holds one JSON object.
-/

namespace PackageAudit

/-- Why a manifest cannot be used. -/
inductive ManifestFault where
  | unreadable (f : TextFault)
  | malformed (e : Json.Located)
  | integerTooLong (digits : Nat)
  | noObject

/-- The members of a manifest. -/
def readManifest (t : Tree) (p : Path) : Except ManifestFault Json.Members :=
  match t.readText p with
  | .error f => .error (.unreadable f)
  | .ok text =>
    match Json.read text with
    | .error (.malformed e) => .error (.malformed e)
    | .error (.integerTooLong n) => .error (.integerTooLong n)
    | .ok (.obj ms) => .ok ms
    | .ok _ => .error .noObject

end PackageAudit
