import PackageAudit.Text.Basic
import PackageAudit.Decimal.Binary64

/-! # JSON values

A value keeps whole numbers apart from binary64 numbers, and the members of an object in their
order. `Json.Members` are the members of one object: adding a member whose name is there already
changes its value and leaves it in its place.
-/

namespace PackageAudit

/-- A JSON value. Names inside one object are distinct when it was read or built with
`Members.insert`. -/
inductive Json where
  | null
  | bool (b : Bool)
  | int (i : Int)
  | real (x : Binary64)
  | str (t : Text)
  | arr (items : List Json)
  | obj (members : List (Text × Json))

namespace Json

/-- The members of an object, in order. -/
abbrev Members := List (Text × Json)

namespace Members

/-- The value of a member. -/
def get? (ms : Members) (name : Text) : Option Json := (ms.find? (·.1 == name)).map (·.2)

/-- Sets a member: in its place if the name is there, else at the end. -/
def insert (ms : Members) (name : Text) (value : Json) : Members :=
  match ms with
  | [] => [(name, value)]
  | m :: rest => if m.1 = name then (name, value) :: rest else m :: insert rest name value

/-- The names, in order. -/
def names (ms : Members) : List Text := ms.map (·.1)

/-- The text that a member holds, if it holds one. -/
def text? (ms : Members) (name : Text) : Option Text :=
  match ms.get? name with
  | some (.str t) => some t
  | _ => none

/-- The members that a member holds, if it holds an object. -/
def members? (ms : Members) (name : Text) : Option Members :=
  match ms.get? name with
  | some (.obj inner) => some inner
  | _ => none

/-- A member that was set holds its value. -/
@[simp] theorem get?_insert_self (ms : Members) (name : Text) (value : Json) :
    get? (insert ms name value) name = some value := by
  unfold get?
  induction ms with
  | nil => simp [insert]
  | cons m rest ih =>
    simp only [insert]
    split
    · simp
    · next h => simpa [h] using ih

theorem get?_insert_of_ne {name other : Text} (h : other ≠ name) (ms : Members) (value : Json) :
    get? (insert ms name value) other = get? ms other := by
  unfold get?
  induction ms with
  | nil => simp [insert, Ne.symm h]
  | cons m rest ih =>
    simp only [insert]
    split
    · next hm => simp [hm, Ne.symm h]
    · simp only [List.find?_cons]
      split
      · rfl
      · exact ih

theorem names_insert_of_mem {ms : Members} {name : Text} (h : name ∈ names ms) (value : Json) :
    names (insert ms name value) = names ms := by
  unfold names at h ⊢
  induction ms with
  | nil => simp at h
  | cons m rest ih =>
    simp only [insert]
    split
    · next hm => simp [hm]
    · next hm =>
      rcases List.mem_cons.mp h with h | h
      · exact absurd h.symm hm
      · rw [List.map_cons, List.map_cons, ih h]

theorem names_insert_of_notMem {ms : Members} {name : Text} (h : name ∉ names ms) (value : Json) :
    names (insert ms name value) = names ms ++ [name] := by
  unfold names at h ⊢
  induction ms with
  | nil => rfl
  | cons m rest ih =>
    rw [List.map_cons, List.mem_cons, not_or] at h
    simp only [insert, if_neg (Ne.symm h.1), List.map_cons, ih h.2, List.cons_append]

end Members

/-- A member of an object; nothing if the value is no object. -/
def get? (v : Json) (name : Text) : Option Json :=
  match v with
  | .obj ms => Members.get? ms name
  | _ => none

/-- A list of texts as a value. -/
def ofTexts (ts : List Text) : Json := .arr (ts.map .str)

/-- A natural number as a value. -/
def ofNat (n : Nat) : Json := .int n

/-- A text, or null for nothing. -/
def ofText? : Option Text → Json
  | some t => .str t
  | none => .null

/-- Does a value count as a yes? Null, the truth value, zeros and what is empty do not. -/
def isTruthy : Json → Bool
  | .null => false
  | .bool b => b
  | .int i => i != 0
  | .real (.finite _ s _) => s != 0
  | .real _ => true
  | .str t => !t.isEmpty
  | .arr items => !items.isEmpty
  | .obj ms => !ms.isEmpty

/-- The word for the kind of a value in messages. -/
def kindName : Json → Text
  | .null => "NoneType"
  | .bool _ => "bool"
  | .int _ => "int"
  | .real _ => "float"
  | .str _ => "str"
  | .arr _ => "list"
  | .obj _ => "dict"

end Json

end PackageAudit
