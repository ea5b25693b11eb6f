import PackageAudit.Proofs.Audit
import PackageAudit.Proofs.Package.Describe
import PackageAudit.Proofs.Report.Score
import PackageAudit.Proofs.Rule.Catalog

/-! # Filters of an audit

An audit may name the rules that it checks and those that it leaves out. The rules are selected
before any is evaluated, and each is evaluated apart from the others (`evaluate_filter`), so what
filters let through is a part of the report without filters (`filters_restrict`).
-/

namespace PackageAudit

namespace AuditOptions

/-- Do the filters of the options let a rule through? -/
def selects (o : AuditOptions) (id : Text) : Bool :=
  (o.included.isEmpty || o.included.contains id) && !o.excluded.contains id

/-- The options without filters. -/
def unfiltered (o : AuditOptions) : AuditOptions := { o with included := [], excluded := [] }

/-- Two options with the same filters, up to order and repetition. -/
structure SameFilters (o o' : AuditOptions) : Prop where
  search : o'.search = o.search
  ruleTimeout : o'.ruleTimeout = o.ruleTimeout
  included : ∀ id, id ∈ o'.included ↔ id ∈ o.included
  excluded : ∀ id, id ∈ o'.excluded ↔ id ∈ o.excluded

theorem SameFilters.unfiltered_eq {o o' : AuditOptions} (h : SameFilters o o') :
    o'.unfiltered = o.unfiltered := by
  unfold unfiltered
  rw [h.search, h.ruleTimeout]

theorem isEmpty_congr {xs ys : List Text} (h : ∀ id, id ∈ xs ↔ id ∈ ys) :
    xs.isEmpty = ys.isEmpty := by
  rw [Bool.eq_iff_iff, List.isEmpty_iff, List.isEmpty_iff, List.eq_nil_iff_forall_not_mem,
    List.eq_nil_iff_forall_not_mem]
  exact forall_congr' fun id => not_congr (h id)

/-- Order and repetition in the filters do not matter. -/
theorem SameFilters.selects_eq {o o' : AuditOptions} (h : SameFilters o o') :
    o'.selects = o.selects := by
  funext id
  unfold selects
  rw [isEmpty_congr h.included]
  congr 2
  · exact Bool.eq_iff_iff.mpr (by simp [h.included id])
  · exact Bool.eq_iff_iff.mpr (by simp [h.excluded id])

end AuditOptions

section
variable {a : Auditor} {t : Tree} {path : Text} {p : Package} {o : AuditOptions}

theorem Auditor.rules_eq_filter (a : Auditor) (p : Package) (o : AuditOptions) :
    a.rules p o = (a.rules p o.unfiltered).filter fun r => o.selects r.id := by
  unfold rules Catalog.applicable AuditOptions.selects AuditOptions.unfiltered
  rw [List.filter_filter]
  refine List.filter_congr fun r _ => ?_
  rw [Bool.eq_iff_iff]
  simp only [Bool.and_eq_true, List.isEmpty_nil, List.contains_nil, Bool.true_or, Bool.not_false,
    and_true]
  rw [and_assoc, and_comm]

/-- **Selection goes through evaluation**: the verdicts on some of the rules are those of the verdicts
that are about them. -/
theorem evaluate_filter {cat : Catalog} {d : Deadline} (keep : Text → Bool) :
    ∀ {rules : List Rule} {vs : List Verdict}, evaluate cat t p d rules = .ok vs →
      evaluate cat t p d (rules.filter fun r => keep r.id) =
        .ok (vs.filter fun v => keep v.ruleId)
  | [], vs, h => by
    cases h
    rfl
  | r :: rules, vs, h => by
    obtain ⟨v, rest, hv, hrest, rfl⟩ := evaluate_cons_eq_ok.mp h
    have ih := evaluate_filter keep hrest
    rw [List.filter_cons, List.filter_cons, Evaluation.ruleId_of_evaluateRule hv]
    split
    · exact evaluate_cons_eq_ok.mpr ⟨v, _, hv, ih, rfl⟩
    · exact ih

theorem verdicts_filter {vs : List Verdict} (h : a.verdicts t p o.unfiltered = .ok vs) :
    a.verdicts t p o = .ok (vs.filter fun v => o.selects v.ruleId) := by
  have heval := evaluate_filter o.selects h
  unfold Auditor.verdicts
  change evaluate _ _ _ _ (a.rules p o) = _
  rw [a.rules_eq_filter p o]
  exact heval

end

/-- **Filters only restrict**, for every catalog that calls lead to. If a package can be audited without
filters then with filters, too. The verdicts are those that the filters let through, one for each
rule that is checked, in the order of the catalog; order and repetition in the filters do not matter.
The score is not lower and the status not worse than without filters. -/
theorem filters_restrict (s : Settings) (calls : List Catalog.Call) (t : Tree) (path : Text)
    (o : AuditOptions) {full : Report}
    (hfull : (Auditor.mk s (.ofCalls calls) none).audit t path o.unfiltered = .ok full) :
    ∃ r, (Auditor.mk s (.ofCalls calls) none).audit t path o = .ok r ∧
      r.verdicts = full.verdicts.filter (fun v => o.selects v.ruleId) ∧
      r.verdicts.map (·.ruleId) = r.included ∧ r.included.Nodup ∧
      r.included.Sublist ((Catalog.ofCalls calls).rules.map (·.id)) ∧
      full.score ≤ r.score ∧ r.status.rank ≤ full.status.rank ∧
      ∀ o', o.SameFilters o' → (Auditor.mk s (.ofCalls calls) none).audit t path o' =
        .ok { r with excluded := o'.excluded } := by
  obtain ⟨-, p, vs, hp, hvs, rfl⟩ := audit_eq_ok.mp hfull
  have hkept := verdicts_filter hvs
  have hfewer : (vs.filter fun v => o.selects v.ruleId).Sublist vs := List.filter_sublist
  have hids : (((Auditor.mk s (.ofCalls calls) none).rules p o).map (·.id)).Sublist
      ((Catalog.ofCalls calls).rules.map (·.id)) := List.filter_sublist.map _
  refine ⟨_, audit_eq_ok.mpr ⟨rfl, p, _, hp, hkept, rfl⟩, rfl, ruleIds_evaluate hkept,
    (Catalog.nodup_ids_ofCalls calls).sublist hids, hids, Score.ofVerdicts_sublist hfewer,
    Status.ofVerdicts_sublist hfewer, fun o' hsame => ?_⟩
  have hkept' := verdicts_filter (o := o') (hsame.unfiltered_eq.symm ▸ hvs)
  have hrules : (Auditor.mk s (.ofCalls calls) none).rules p o' =
      (Auditor.mk s (.ofCalls calls) none).rules p o := by
    rw [Auditor.rules_eq_filter _ p o', Auditor.rules_eq_filter _ p o, hsame.unfiltered_eq,
      hsame.selects_eq]
  rw [hsame.selects_eq] at hkept'
  refine audit_eq_ok.mpr ⟨rfl, p, _, hsame.search.symm ▸ hp, hkept', ?_⟩
  rw [hrules]
  rfl

/-! ### A rule that is left out -/

namespace Narrowed

def rule (id : Text) (severity : Severity) : Rule where
  id := id
  name := id
  description := []
  category := .structural
  severity := severity
  applicability := .everywhere
  enabled := true
  remediation := []
  canAutoFix := false
  risk := .low
  tags := []

/-- A check that comes before its rule, a rule that is registered again, and one that is refused. -/
def calls : List Catalog.Call :=
  [.registerCheck "B" fun _ _ => .outcome (.passed "fine"),
    .register (rule "A" .warning) (some fun _ _ => .outcome (.failed "found")),
    .register (rule "B" .error) none, .register (rule "A" .critical) none, .freeze,
    .register (rule "C" .error) none]

def auditor : Auditor := ⟨.default, .ofCalls calls, none⟩

def tree : Tree := ⟨[(["pkg"], .folder), (["pkg", "package.json"], .file [123, 125])], []⟩

/-- A rule is named twice, and one that there is not. -/
def options : AuditOptions :=
  { AuditOptions.default with included := ["B", "D", "B"], excluded := ["A"] }

def root : Path := ⟨.root, ["pkg"]⟩

def files : List PackageFile := [⟨"package.json", false, 2, some 1, false⟩]

theorem describe_eq : describe tree .default "/pkg" options.search =
    .ok (Describe.package .default root [] files) := by
  have hnames : tree.names ["pkg"] = [Text.ofString "package.json"] :=
    Tree.names_of_ordered (by decide) (by decide)
  exact describe_of_names rfl rfl rfl rfl rfl rfl hnames rfl

/-- One rule is failed and one is passed. -/
def verdicts : List Verdict :=
  [Evaluation.verdict (rule "A" .critical) (.failed "found"),
    Evaluation.verdict (rule "B" .error) (.passed "fine")]

theorem audit_eq : ∃ full, auditor.audit tree "/pkg" options.unfiltered = .ok full ∧
    full.verdicts = verdicts ∧ full.score = 75 :=
  ⟨_, audit_eq_ok.mpr ⟨rfl, _, verdicts, describe_eq, rfl, rfl⟩, rfl, rfl⟩

end Narrowed

/-- The failed rule is left out: its verdict is gone, and the score is the full one. -/
theorem filters_restrict_narrowed : ∃ full r,
    Narrowed.auditor.audit Narrowed.tree "/pkg" Narrowed.options.unfiltered = .ok full ∧
      Narrowed.auditor.audit Narrowed.tree "/pkg" Narrowed.options = .ok r ∧
      r.verdicts = full.verdicts.drop 1 ∧ full.score = 75 ∧ full.score ≤ r.score ∧
      r.status.rank ≤ full.status.rank := by
  obtain ⟨full, hfull, hverdicts, hscore⟩ := Narrowed.audit_eq
  obtain ⟨r, hr, hkept, -, -, -, hless, hworse, -⟩ :=
    filters_restrict .default Narrowed.calls Narrowed.tree "/pkg" Narrowed.options hfull
  refine ⟨full, r, hfull, hr, ?_, hscore, hless, hworse⟩
  rw [hkept, hverdicts]
  rfl

end PackageAudit
