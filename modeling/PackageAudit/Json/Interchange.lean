import PackageAudit.Json.Basic
import PackageAudit.Text.Utf8

/-! # JSON for other programs

JSON has no numbers but finite ones, its names are UTF-8, and programs that read it bound how deep
values may lie in each other. `Json.interchange` is the form of an object that keeps to this: null
stands for an infinity and for no number. In the object's own names surrogates are replaced; in the
objects inside they are refused. Texts that are values stay as they are.
-/

namespace PackageAudit.Json

/-- The most values that may lie in each other. -/
def maxNesting : Nat := 255

/-- Why an object has no form for other programs. -/
inductive Unexchangeable where
  | nestedTooDeep
  /-- A name inside has no UTF-8 form. -/
  | name (e : Utf8.EncodeError)
deriving DecidableEq

/-- The words for the reason. -/
def Unexchangeable.message : Unexchangeable → Text
  | .nestedTooDeep => "Maximum serialization depth exceeded"
  | .name e => e.message

/-- The name of the class that the reason belongs to. -/
def Unexchangeable.kindName : Unexchangeable → Text
  | .nestedTooDeep => "ValueError"
  | .name _ => "UnicodeEncodeError"

mutual

/-- The form of a value inside `depth` others. -/
def exchanged (depth : Nat) (v : Json) : Except Unexchangeable Json :=
  if maxNesting ≤ depth then .error .nestedTooDeep
  else
    match v with
    | .real (.finite n s e) => .ok (.real (.finite n s e))
    | .real _ => .ok .null
    | .arr items => (exchangedItems (depth + 1) items).map .arr
    | .obj ms => (exchangedMembers (depth + 1) ms).map .obj
    | v => .ok v

/-- The forms of the items of an array. -/
def exchangedItems (depth : Nat) : List Json → Except Unexchangeable (List Json)
  | [] => .ok []
  | v :: vs =>
    match exchanged depth v with
    | .error u => .error u
    | .ok v => (exchangedItems depth vs).map (v :: ·)

/-- The forms of the members of an object inside. -/
def exchangedMembers (depth : Nat) : List (Text × Json) → Except Unexchangeable Members
  | [] => .ok []
  | (name, v) :: ms =>
    match Utf8.encode name with
    | .error e => .error (.name e)
    | .ok _ =>
      match exchanged depth v with
      | .error u => .error u
      | .ok v => (exchangedMembers depth ms).map ((name, v) :: ·)

end

/-- The form of an object for other programs. Of two members that come to have one name the last one
counts. -/
def Members.interchange (ms : Members) : Except Unexchangeable Members :=
  ms.foldlM (fun done (name, v) =>
    (exchanged 0 v).map fun v => done.insert (Utf8.legible name) v) []

end PackageAudit.Json
