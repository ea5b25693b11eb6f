import PackageAudit.Rule.Builtin

/-! # What calls make of a catalog

A catalog comes of a sequence of calls (`Catalog.ofCalls`), some of which may be refused. Whatever the
calls, no two rules of the catalog have the same name (`nodup_ids_ofCalls`).
-/

namespace PackageAudit

namespace Catalog

/-- A call that may change a catalog. -/
inductive Call where
  | register (r : Rule) (check : Option Check)
  | registerCheck (id : Text) (c : Check)
  | freeze

/-- What a call leaves; one that is refused leaves the catalog as it is. -/
def call (cat : Catalog) : Call → Catalog
  | .register r check => (cat.register r check).toOption.getD cat
  | .registerCheck id c => (cat.registerCheck id c).toOption.getD cat
  | .freeze => cat.freeze

/-- What calls make of a new catalog. -/
def ofCalls (calls : List Call) : Catalog := calls.foldl call empty

theorem nodup_ids_putRule {r : Rule} {rs : List Rule} (h : (rs.map (·.id)).Nodup) :
    ((putRule r rs).map (·.id)).Nodup := by
  by_cases hr : r.id ∈ rs.map (·.id)
  · rwa [map_id_putRule_of_mem hr]
  · rw [map_id_putRule_of_notMem hr, List.nodup_append]
    refine ⟨h, by simp, fun id hid id' hid' heq => hr ?_⟩
    rwa [← List.mem_singleton.mp hid', ← heq]

/-- A call keeps the names of the rules distinct. -/
theorem nodup_ids_call {cat : Catalog} (h : (cat.rules.map (·.id)).Nodup) (c : Call) :
    ((cat.call c).rules.map (·.id)).Nodup := by
  cases c with
  | register r check =>
    simp only [call, register]
    split
    · exact h
    · exact nodup_ids_putRule h
  | registerCheck id c =>
    simp only [call, registerCheck]
    split <;> exact h
  | freeze => exact h

theorem nodup_ids_foldl_call : ∀ (calls : List Call) {cat : Catalog},
    (cat.rules.map (·.id)).Nodup → ((calls.foldl call cat).rules.map (·.id)).Nodup
  | [], _, h => h
  | c :: calls, _, h => nodup_ids_foldl_call calls (nodup_ids_call h c)

/-- **No two rules of a catalog have the same name**, whatever calls it comes of. -/
theorem nodup_ids_ofCalls (calls : List Call) : ((ofCalls calls).rules.map (·.id)).Nodup :=
  nodup_ids_foldl_call calls List.nodup_nil

/-- The catalog that comes with the audit is one of these. -/
theorem ofCalls_builtin (s : Settings) :
    ofCalls (BuiltinCheck.all.map fun c => .register c.rule (some (c.run s))) = builtin s := by
  rfl

end Catalog

end PackageAudit
