import PackageAudit.Tree.Path
import PackageAudit.Tree.Fault

/-! # File trees

A tree is a finite map from locations to files, directories and links, with the directory that
relative paths start from. The root is always a directory. `Tree.put` and `Tree.erase` change the
map and nothing else; whether a path may be written is decided by the modules that use them.
-/

namespace PackageAudit

/-- What a location holds. -/
inductive Entry where
  | file (bytes : List UInt8)
  | folder
  | link (target : Text)
deriving DecidableEq

/-- A file tree. -/
structure Tree where
  entries : List (Location × Entry)
  /-- Where relative paths start. -/
  here : Location
deriving DecidableEq

namespace Tree

/-- What a location holds. -/
def get? (t : Tree) (l : Location) : Option Entry :=
  if l = [] then some .folder else (t.entries.find? (·.1 == l)).map (·.2)

/-- The root is a directory. -/
@[simp] theorem get?_root (t : Tree) : t.get? [] = some .folder := rfl

/-- Changes what a location holds, or adds the location. -/
def putIn (l : Location) (e : Entry) : List (Location × Entry) → List (Location × Entry)
  | [] => [(l, e)]
  | x :: rest => if x.1 = l then (l, e) :: rest else x :: putIn l e rest

/-- The tree with a new entry at a location. -/
def put (t : Tree) (l : Location) (e : Entry) : Tree := { t with entries := putIn l e t.entries }

theorem get?_put_self {l : Location} (h : l ≠ []) (t : Tree) (e : Entry) :
    (t.put l e).get? l = some e := by
  have found (xs : List (Location × Entry)) :
      ((putIn l e xs).find? (·.1 == l)).map (·.2) = some e := by
    induction xs with
    | nil => simp [putIn]
    | cons x rest ih =>
      simp only [putIn]
      split
      · simp
      · next hx => simpa [hx] using ih
  simp [get?, put, h, found]

theorem get?_put_of_ne {l k : Location} (h : k ≠ l) (t : Tree) (e : Entry) :
    (t.put l e).get? k = t.get? k := by
  have same (xs : List (Location × Entry)) :
      (putIn l e xs).find? (·.1 == k) = xs.find? (·.1 == k) := by
    induction xs with
    | nil => simp [putIn, Ne.symm h]
    | cons x rest ih =>
      simp only [putIn]
      split
      · next hx => simp [hx, Ne.symm h]
      · simp only [List.find?_cons]
        split
        · rfl
        · exact ih
  simp [get?, put, same]

/-- The tree without a location and everything below it. -/
def erase (t : Tree) (l : Location) : Tree :=
  { t with entries := t.entries.filter fun x => !l.isPrefixOf x.1 }

theorem get?_erase_of_outside {l k : Location} (h : ¬ l <+: k) (t : Tree) :
    (t.erase l).get? k = t.get? k := by
  simp only [get?, erase, List.find?_filter]
  congr 3
  funext x
  by_cases hx : x.1 = k
  · simp [hx, Bool.eq_false_iff.mpr (mt List.isPrefixOf_iff_prefix.mp h)]
  · simp [hx]

/-- The name of a location inside a directory, if it lies directly in it. -/
def nameIn? (folder l : Location) : Option Text :=
  if folder.isPrefixOf l then
    match l.drop folder.length with
    | [name] => some name
    | _ => none
  else none

/-- The names in a directory, in the order of their code points. -/
def names (t : Tree) (folder : Location) : List Text :=
  (t.entries.filterMap fun x => nameIn? folder x.1).mergeSort fun a b => !Text.before b a

/-- The location that a path starts from. -/
def start (t : Tree) (p : Path) : Location := if p.isAbsolute then [] else t.here

end Tree

end PackageAudit
