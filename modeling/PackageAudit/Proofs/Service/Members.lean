import PackageAudit.Proofs.Service.Lossless
import Mathlib.Data.List.Nodup

/-! # The members of a manifest that is repaired

`BuiltinRemedy.rewrite` is what a remedy that succeeds makes of the members of the manifest. In whatever
order remedies come, the manifest has the same members in the end (`same_foldl`), if in another order.
-/

namespace PackageAudit

open Json (Members again againMembers)

namespace Json.Members

/-- Objects with the same members, in whatever order. -/
def Same (ms ms' : Members) : Prop := ∀ name, ms.get? name = ms'.get? name

section
variable {ms ms' ms'' : Members} {name : Text}

theorem Same.refl (ms : Members) : Same ms ms := fun _ => rfl

theorem Same.trans (h : Same ms ms') (h' : Same ms' ms'') : Same ms ms'' :=
  fun name => (h name).trans (h' name)

theorem get?_insert (ms : Members) (name : Text) (v : Json) (other : Text) :
    get? (insert ms name v) other = if other = name then some v else get? ms other := by
  split
  · next h => rw [h, get?_insert_self]
  · next h => exact get?_insert_of_ne h ms v

theorem get?_insert_congr (h : get? ms name = get? ms' name) (other : Text) (v : Json) :
    get? (insert ms other v) name = get? (insert ms' other v) name := by
  rw [get?_insert, get?_insert, h]

theorem text?_congr (h : get? ms name = get? ms' name) : text? ms name = text? ms' name := by
  unfold text?
  rw [h]

theorem members?_congr (h : get? ms name = get? ms' name) :
    members? ms name = members? ms' name := by
  unfold members?
  rw [h]

theorem mem_iff_get? (h : (names ms).Nodup) {m : Text × Json} :
    m ∈ ms ↔ get? ms m.1 = some m.2 := by
  obtain ⟨name, v⟩ := m
  unfold names at h
  induction ms with
  | nil => simp [get?]
  | cons m ms ih =>
    obtain ⟨hfirst, hrest⟩ := List.nodup_cons.mp h
    have hcons : get? (m :: ms) name = if m.1 = name then some m.2 else get? ms name := by
      unfold get?
      rw [List.find?_cons]
      split <;> next h => simp_all
    rw [List.mem_cons, ih hrest, hcons]
    split
    · next hm =>
      subst hm
      have hnone : get? ms m.1 = none := by
        refine Option.map_eq_none_iff.mpr (List.find?_eq_none.mpr fun x hx he => hfirst ?_)
        have hmem : x.1 ∈ ms.map (·.1) := List.mem_map_of_mem hx
        rwa [eq_of_beq he] at hmem
      simp [hnone, Prod.ext_iff, eq_comm]
    · next hm => exact or_iff_right fun he => hm (by rw [← he])

/-- The same members are a rearrangement of each other, if their names are distinct. -/
theorem Same.perm (h : Same ms ms') (hn : (names ms).Nodup) (hn' : (names ms').Nodup) :
    ms.Perm ms' := by
  refine (List.perm_ext_iff_of_nodup (List.Nodup.of_map _ hn) (List.Nodup.of_map _ hn')).mpr ?_
  intro m
  rw [mem_iff_get? hn, mem_iff_get? hn', h m.1]

end

end Json.Members

section
variable {ms ms' : Members} {name root : Text}

theorem Json.againMembers_insert (ms : Members) (name : Text) (v : Json) :
    againMembers (ms.insert name v) = (againMembers ms).insert name (again v) := by
  induction ms with
  | nil => rfl
  | cons m ms ih =>
    obtain ⟨other, w⟩ := m
    rw [Members.insert, againMembers, Members.insert]
    split
    · rfl
    · rw [againMembers, ih]

theorem againMembers_withTexts (wanted : List (Text × Text)) (ms : Members) :
    againMembers (withTexts ms wanted) = withTexts (againMembers ms) wanted := by
  induction wanted generalizing ms with
  | nil => rfl
  | cons x wanted ih =>
    have hstep := Json.againMembers_insert ms x.1 (.str x.2)
    exact (ih _).trans (congrArg (withTexts · wanted) hstep)

theorem get?_withTexts_congr (h : ms.get? name = ms'.get? name) (wanted : List (Text × Text)) :
    (withTexts ms wanted).get? name = (withTexts ms' wanted).get? name := by
  induction wanted generalizing ms ms' with
  | nil => exact h
  | cons x wanted ih => exact ih (Members.get?_insert_congr h x.1 _)

theorem missingTexts_congr (h : ∀ name ∈ ["name", "version"].map Text.ofString,
    ms.text? name = ms'.text? name) : missingTexts root ms = missingTexts root ms' := by
  refine List.filter_congr fun x hx => ?_
  have hname : x.1 ∈ ["name", "version"].map Text.ofString := by
    rcases List.mem_cons.mp hx with rfl | hx
    · exact List.mem_cons_self
    · obtain rfl := List.mem_singleton.mp hx
      exact List.mem_cons_of_mem _ List.mem_cons_self
  unfold Remedies.declares
  rw [h x.1 hname]

theorem notMem_missingTexts_scripts (root : Text) (ms : Members) :
    Text.ofString "scripts" ∉ (missingTexts root ms).map (·.1) := by
  intro hin
  obtain ⟨x, hx, hname⟩ := List.mem_map.mp hin
  rcases mem_wantedTexts hx with h | h <;> exact absurd (hname.symm.trans h) (by decide)

/-- A build script adds nothing that is missing, and nothing that is there goes missing. -/
theorem missingTexts_withBuildScript (root : Text) (ms : Members) :
    missingTexts root (againMembers (withBuildScript ms)) = missingTexts root ms := by
  refine missingTexts_congr fun name hname => ?_
  have hne : name ≠ Text.ofString "scripts" := by
    rintro rfl
    exact absurd hname (by decide)
  rw [Json.text?_againMembers]
  exact Members.text?_congr (Members.get?_insert_of_ne hne ms _)

end

/-- What a remedy that succeeds makes of the members of the manifest. -/
def BuiltinRemedy.rewrite (r : BuiltinRemedy) (root : Text) (ms : Members) : Members :=
  match r with
  | manifest => if (missingTexts root ms).isEmpty then ms else againMembers (completed root ms)
  | buildScript => againMembers (withBuildScript ms)
  | _ => ms

/-- What the repair of a violation makes of the members of the manifest, if it succeeds. -/
def rewriteFor (root : Text) (ms : Members) (v : Verdict) : Members :=
  match BuiltinRemedy.all.find? (·.ruleId == v.ruleId) with
  | some r => r.rewrite root ms
  | none => ms

theorem rewriteFor_of_ruleId {v : Verdict} {r : BuiltinRemedy} (h : v.ruleId = r.ruleId)
    (root : Text) (ms : Members) : rewriteFor root ms v = r.rewrite root ms := by
  have hfind : BuiltinRemedy.all.find? (·.ruleId == r.ruleId) = some r := by
    cases r <;> decide
  unfold rewriteFor
  rw [h, hfind]

section
variable {ms ms' : Members} {root : Text}

/-- **Completing a manifest and declaring its build script commute.** -/
theorem same_completed_built (root : Text) (ms : Members) : Members.Same
    (BuiltinRemedy.manifest.rewrite root (BuiltinRemedy.buildScript.rewrite root ms))
    (BuiltinRemedy.buildScript.rewrite root (BuiltinRemedy.manifest.rewrite root ms)) := by
  simp only [BuiltinRemedy.rewrite, missingTexts_withBuildScript]
  by_cases hnone : (missingTexts root ms).isEmpty
  · rw [if_pos hnone, if_pos hnone]
    exact .refl _
  rw [if_neg hnone, if_neg hnone, completed, missingTexts_withBuildScript, completed,
    againMembers_withTexts, againMembers_withTexts]
  intro name
  by_cases hname : name = Text.ofString "scripts"
  · -- the scripts are read back twice in either order
    subst hname
    have hnot := notMem_missingTexts_scripts root ms
    have hinner : (withTexts (againMembers ms) (missingTexts root ms)).members?
        (Text.ofString "scripts") = (ms.members? (Text.ofString "scripts")).map againMembers :=
      (Members.members?_congr (get?_withTexts hnot _)).trans Json.members?_againMembers
    rw [get?_withTexts hnot]
    simp only [withBuildScript, Json.againMembers_insert, Members.get?_insert_self, hinner, again]
    cases ms.members? (Text.ofString "scripts") <;> rfl
  · have hother : ∀ ms : Members, (againMembers (withBuildScript ms)).get? name =
        (againMembers ms).get? name := by
      intro ms
      rw [Json.get?_againMembers, Json.get?_againMembers, withBuildScript,
        Members.get?_insert_of_ne hname]
    rw [hother, againMembers_withTexts]
    refine get?_withTexts_congr ?_ _
    rw [Json.get?_againMembers, hother, ← Json.get?_againMembers]

theorem Json.Members.Same.rewrite (h : Members.Same ms ms') (r : BuiltinRemedy) :
    Members.Same (r.rewrite root ms) (r.rewrite root ms') := by
  have hmissing : missingTexts root ms = missingTexts root ms' :=
    missingTexts_congr fun name _ => Members.text?_congr (h name)
  cases r with
  | manifest =>
    intro name
    simp only [BuiltinRemedy.rewrite, completed, hmissing]
    split
    · exact h name
    · rw [Json.get?_againMembers, Json.get?_againMembers, get?_withTexts_congr (h name)]
  | buildScript =>
    intro name
    simp only [BuiltinRemedy.rewrite, withBuildScript, Members.members?_congr (h _)]
    rw [Json.get?_againMembers, Json.get?_againMembers, Members.get?_insert_congr (h name)]
  | _ => exact h

theorem same_rewrite_comm (r r' : BuiltinRemedy) (root : Text) (ms : Members) :
    Members.Same (r'.rewrite root (r.rewrite root ms)) (r.rewrite root (r'.rewrite root ms)) := by
  cases r <;> cases r' <;> first
    | exact .refl _
    | exact same_completed_built root ms
    | exact fun name => (same_completed_built root ms name).symm

theorem Json.Members.Same.rewriteFor (h : Members.Same ms ms') (v : Verdict) :
    Members.Same (PackageAudit.rewriteFor root ms v) (PackageAudit.rewriteFor root ms' v) := by
  unfold PackageAudit.rewriteFor
  split
  · exact h.rewrite _
  · exact h

theorem same_rewriteFor_comm (root : Text) (ms : Members) (v v' : Verdict) :
    Members.Same (rewriteFor root (rewriteFor root ms v) v')
      (rewriteFor root (rewriteFor root ms v') v) := by
  unfold rewriteFor
  cases BuiltinRemedy.all.find? (·.ruleId == v.ruleId) with
  | none => exact .refl _
  | some r =>
    cases BuiltinRemedy.all.find? (·.ruleId == v'.ruleId) with
    | none => exact .refl _
    | some r' => exact same_rewrite_comm r r' root ms

/-- **Whatever the order of repairs, the manifest has the same members in the end.** -/
theorem same_foldl {vs vs' : List Verdict} (hperm : vs.Perm vs') :
    ∀ {ms ms' : Members}, Members.Same ms ms' →
      Members.Same (vs.foldl (rewriteFor root) ms) (vs'.foldl (rewriteFor root) ms') := by
  induction hperm with
  | nil => exact fun h => h
  | cons v _ ih => exact fun h => ih (h.rewriteFor v)
  | swap v v' vs =>
    intro ms ms' h
    have hrest : ∀ (vs : List Verdict) {ms ms' : Members}, Members.Same ms ms' →
        Members.Same (vs.foldl (rewriteFor root) ms) (vs.foldl (rewriteFor root) ms') := by
      intro vs
      induction vs with
      | nil => exact fun h => h
      | cons v vs ih => exact fun h => ih (h.rewriteFor v)
    exact hrest vs ((same_rewriteFor_comm root ms v' v).trans ((h.rewriteFor v).rewriteFor v'))
  | trans _ _ ih ih' => exact fun h => (ih h).trans (ih' (.refl _))

end

end PackageAudit
