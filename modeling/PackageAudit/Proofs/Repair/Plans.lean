import PackageAudit.Check.Documents
import PackageAudit.Proofs.Package.Manifest
import PackageAudit.Proofs.Repair.Journal
import PackageAudit.Proofs.Repair.Remedies

/-! # What the plans of remedies write

The contents that remedies write satisfy the checks that they answer (`serves_of_plan`). The two
remedies that rewrite the manifest keep in it what the other one has put there (`keeps_of_plan`).
-/

namespace PackageAudit

open Json (Members Readable PairFree pairFree_of_not_high)

/-- Bytes that satisfy the check that a remedy answers, as far as they decide it. -/
def BuiltinRemedy.Serves (r : BuiltinRemedy) (bytes : List UInt8) : Prop :=
  match r with
  | manifest => ∃ ms, ManifestBytes bytes ms ∧ Complete ms
  | buildScript => ∃ ms, ManifestBytes bytes ms ∧ Builds ms
  | readme => ∃ text, Utf8.decode bytes = .ok text ∧
    Settings.default.readmeMinLength ≤ text.uniformLineEnds.trim.length
  | typeConfig => ∃ text, Utf8.decode bytes = .ok text ∧ text.uniformLineEnds.isBlank = false ∧
    text.uniformLineEnds.anywhere Check.compilerOptionsHere = true
  | testDirectory => True
  | ignoreFile => True

section
variable {site : Site} {v : Verdict} {actions : List Action} {a : Action}

/-! ## Rewriting the manifest -/

theorem manifest?_eq_some {ms : Members} : Remedies.manifest? site = .ok (some ms) ↔
    readManifest site.tree (manifestPath site.settings site.root) = .ok ms := by
  unfold Remedies.manifest? manifestPath
  simp only
  cases readManifest site.tree (site.root.join (.ofText site.settings.manifestName)) with
  | ok found => simp
  | error f =>
    cases f with
    | unreadable f =>
      cases f with
      | file f =>
        simp only
        split <;> simp
      | undecodable e => simp
    | malformed e => simp
    | integerTooLong n => simp
    | noObject => simp

theorem readable_of_manifest? {ms : Members} (h : Remedies.manifest? site = .ok (some ms)) :
    Readable (.obj ms) := by
  obtain ⟨text, -, hread⟩ := readManifest_eq_ok.mp (manifest?_eq_some.mp h)
  exact Json.readable_of_read hread

theorem declares_eq (ms : Members) (name : Text) :
    Remedies.declares ms name = (Check.declared? ms name).isSome := by
  unfold Remedies.declares Check.declared?
  cases ms.text? name with
  | none => rfl
  | some t => cases ht : t.isBlank <;> simp [ht]

/-- A name that a manifest can declare: it is not blank, and a document keeps it as it is. -/
structure Declarable (name : Text) : Prop where
  noHigh : name.any CodePoint.isHighSurrogate = false
  notBlank : name.isBlank = false

theorem readable_withTexts {wanted : List (Text × Text)}
    (hw : ∀ x ∈ wanted, PairFree x.1 ∧ PairFree x.2) {ms : Members} (h : Readable (.obj ms)) :
    Readable (.obj (withTexts ms wanted)) := by
  induction wanted generalizing ms with
  | nil => exact h
  | cons x wanted ih =>
    obtain ⟨hname, hvalue⟩ := hw x List.mem_cons_self
    exact ih (fun y hy => hw y (List.mem_cons_of_mem x hy)) (h.insert hname hvalue)

theorem builds_withTexts {wanted : List (Text × Text)}
    (hw : Text.ofString "scripts" ∉ wanted.map (·.1)) {ms : Members} (h : Builds ms) :
    Builds (withTexts ms wanted) := by
  induction wanted generalizing ms with
  | nil => exact h
  | cons x wanted ih =>
    rw [List.map_cons, List.mem_cons, not_or] at hw
    exact ih hw.2 (h.insert hw.1 _)

theorem declared?_withTexts_of_notMem {wanted : List (Text × Text)} {name : Text}
    (hw : name ∉ wanted.map (·.1)) (ms : Members) :
    Check.declared? (withTexts ms wanted) name = Check.declared? ms name := by
  induction wanted generalizing ms with
  | nil => rfl
  | cons x wanted ih =>
    rw [List.map_cons, List.mem_cons, not_or] at hw
    exact (ih hw.2 _).trans (declared?_insert_of_ne hw.1 _)

theorem declared?_withTexts_of_mem {wanted : List (Text × Text)}
    (hblank : ∀ x ∈ wanted, x.2.isBlank = false) {name : Text} (hw : name ∈ wanted.map (·.1))
    (ms : Members) : (Check.declared? (withTexts ms wanted) name).isSome = true := by
  induction wanted generalizing ms with
  | nil => cases hw
  | cons x wanted ih =>
    have hrest := ih fun y hy => hblank y (List.mem_cons_of_mem x hy)
    by_cases hin : name ∈ wanted.map (·.1)
    · exact hrest hin _
    · obtain rfl := (List.mem_cons.mp hw).resolve_right hin
      have hset := declared?_withTexts_of_notMem hin (Members.insert ms x.1 (.str x.2))
      rw [withTexts, List.foldl_cons, ← withTexts, hset,
        declared?_insert_self (hblank x List.mem_cons_self)]
      rfl

/-- What is wanted and missing is set, and then everything that is wanted is declared. -/
theorem declared?_completed {wanted : List (Text × Text)}
    (hblank : ∀ x ∈ wanted, x.2.isBlank = false) {name : Text} (hw : name ∈ wanted.map (·.1))
    (ms : Members) : (Check.declared?
      (withTexts ms (wanted.filter fun x => !Remedies.declares ms x.1)) name).isSome = true := by
  by_cases hdeclared : Remedies.declares ms name = true
  · rw [declared?_withTexts_of_notMem, ← declares_eq]
    · exact hdeclared
    · intro hin
      obtain ⟨x, hx, rfl⟩ := List.mem_map.mp hin
      simp [hdeclared] at hx
  · refine declared?_withTexts_of_mem (fun x hx => hblank x (List.mem_filter.mp hx).1) ?_ ms
    obtain ⟨x, hx, rfl⟩ := List.mem_map.mp hw
    exact List.mem_map_of_mem (List.mem_filter.mpr ⟨hx, by simp [hdeclared]⟩)

/-- A manifest that is written in place of the one that is there. -/
structure Rewrites (site : Site) (actions : List Action) (ms : Members) : Prop where
  actions : ∃ description,
    actions = Remedies.writeJson site.settings.manifestName description ms
  readable : Readable (.obj ms)
  complete : ∀ old, Remedies.manifest? site = .ok (some old) → Complete old → Complete ms
  builds : ∀ old, Remedies.manifest? site = .ok (some old) → Builds old → Builds ms

theorem Rewrites.of_mem {ms : Members} (h : Rewrites site actions ms) (ha : a ∈ actions) :
    a.content = some (Json.document (.obj ms)) := by
  obtain ⟨description, rfl⟩ := h.actions
  rw [List.mem_singleton.mp ha]

section
variable {root : Text} {ms : Members}

theorem pairFree_wantedTexts (hroot : root.any CodePoint.isHighSurrogate = false) :
    ∀ x ∈ wantedTexts root, PairFree x.1 ∧ PairFree x.2 := by
  intro x hx
  rcases List.mem_cons.mp hx with rfl | hx
  · exact ⟨pairFree_of_not_high (t := "name") (by decide), pairFree_of_not_high hroot⟩
  · obtain rfl := List.mem_singleton.mp hx
    exact ⟨pairFree_of_not_high (by decide), pairFree_of_not_high (by decide)⟩

theorem readable_completed (hroot : root.any CodePoint.isHighSurrogate = false)
    (h : Readable (.obj ms)) : Readable (.obj (completed root ms)) :=
  readable_withTexts (fun x hx => pairFree_wantedTexts hroot x (List.mem_filter.mp hx).1) h

theorem complete_completed (hroot : root.isBlank = false) (ms : Members) :
    Complete (completed root ms) := by
  have hblank : ∀ x ∈ wantedTexts root, x.2.isBlank = false := by
    intro x hx
    rcases List.mem_cons.mp hx with rfl | hx
    · exact hroot
    · obtain rfl := List.mem_singleton.mp hx
      decide
  exact ⟨declared?_completed hblank List.mem_cons_self ms,
    declared?_completed hblank (List.mem_cons_of_mem _ List.mem_cons_self) ms⟩

theorem Builds.completed (h : Builds ms) (root : Text) :
    Builds (PackageAudit.completed root ms) := by
  refine builds_withTexts (fun hin => ?_) h
  obtain ⟨x, hx, hname⟩ := List.mem_map.mp hin
  have hnames : x.1 ∈ (wantedTexts root).map (·.1) := List.mem_map_of_mem (List.mem_filter.mp hx).1
  rw [hname] at hnames
  exact absurd hnames (by decide : Text.ofString "scripts" ∉ [Text.ofString "name", "version"])

theorem readable_withBuildScript (h : Readable (.obj ms)) :
    Readable (.obj (withBuildScript ms)) :=
  h.insert (pairFree_of_not_high (by decide))
    ((readable_members? h).insert (pairFree_of_not_high (by decide))
      (pairFree_of_not_high (by decide)))

theorem readable_freshManifest (h : root.any CodePoint.isHighSurrogate = false) :
    Readable (.obj (Remedies.freshManifest root)) := by
  have hpure : ∀ {t : Text}, t.any CodePoint.isHighSurrogate = false → PairFree t :=
    pairFree_of_not_high
  have hmodule : (root ++ Text.ofString " module").any CodePoint.isHighSurrogate = false := by
    rw [List.any_append, h]
    decide
  have hscripts : Readable
      (.obj [("build", .str "tsc"), ("test", .str "jest")]) :=
    ⟨by decide, hpure (by decide), hpure (by decide), hpure (by decide), hpure (by decide), trivial⟩
  have hnodup : ["name", "version", "description", "scripts"].map Text.ofString |>.Nodup := by decide
  exact ⟨hnodup, hpure (by decide), hpure h,
    hpure (by decide), hpure (by decide), hpure (by decide), hpure hmodule, hpure (by decide),
    hscripts, trivial⟩

theorem complete_freshManifest (h : root.isBlank = false) :
    Complete (Remedies.freshManifest root) := by
  have htext : (Remedies.freshManifest root).text? "name" = some root := rfl
  refine ⟨?_, rfl⟩
  unfold Check.declared?
  simp [htext, h]

end

/-- **The plan for an incomplete manifest completes it.** -/
theorem of_completeManifest (h : Remedies.completeManifest site = .ok actions)
    (hname : Declarable site.root.name) :
    (actions = [] ∧ ∃ ms, Remedies.manifest? site = .ok (some ms) ∧ Complete ms) ∨
      ∃ ms, Rewrites site actions ms ∧ Complete ms := by
  rcases completeManifest_eq_ok.mp h with ⟨hm, rfl⟩ | ⟨ms, hm, rfl⟩
  · have hnone : ∀ old, Remedies.manifest? site ≠ .ok (some old) := by
      rw [hm]
      exact nofun
    exact .inr ⟨_, ⟨⟨_, rfl⟩, readable_freshManifest hname.noHigh,
      fun old hold => absurd hold (hnone old), fun old hold => absurd hold (hnone old)⟩,
      complete_freshManifest hname.notBlank⟩
  · have hcomplete := complete_completed hname.notBlank ms
    unfold completion
    split
    · next hempty =>
      rw [completed, List.isEmpty_iff.mp hempty] at hcomplete
      exact .inl ⟨rfl, ms, hm, hcomplete⟩
    · refine .inr ⟨_, ⟨⟨_, rfl⟩, readable_completed hname.noHigh (readable_of_manifest? hm),
        fun _ _ _ => hcomplete, fun old hold hb => ?_⟩, hcomplete⟩
      cases hm.symm.trans hold
      exact hb.completed site.root.name

/-- **The plan for a missing build script declares one.** -/
theorem of_addBuildScript (h : Remedies.addBuildScript site v = .ok actions) :
    ∃ ms, Rewrites site actions ms ∧ Builds ms := by
  obtain ⟨ms, hm, rfl⟩ := addBuildScript_eq_ok.mp h
  have hbuilds : Builds (withBuildScript ms) := builds_insert_scripts (by decide)
  refine ⟨_, ⟨⟨_, rfl⟩, readable_withBuildScript (readable_of_manifest? hm), fun old hold hc => ?_,
    fun _ _ _ => hbuilds⟩, hbuilds⟩
  cases hm.symm.trans hold
  exact hc.insert (by decide) (by decide) _

/-! ## Contents that satisfy their checks -/

theorem serves_document {r : BuiltinRemedy} {ms : Members} (h : Readable (.obj ms))
    (hgoal : (r = .manifest ∧ Complete ms) ∨ (r = .buildScript ∧ Builds ms)) :
    r.Serves (Repair.contentBytes (Json.document (.obj ms))) := by
  obtain ⟨bytes, hbytes, hread⟩ := manifestBytes_document h
  rw [Repair.contentBytes_of_ok hbytes]
  rcases hgoal with ⟨rfl, hcomplete⟩ | ⟨rfl, hbuilds⟩
  · exact ⟨_, hread, complete_againMembers.mpr hcomplete⟩
  · exact ⟨_, hread, builds_againMembers.mpr hbuilds⟩

theorem serves_readmeText {name : Text} {bytes : List UInt8}
    (h : Utf8.encode (Remedies.readmeText name) = .ok bytes) : BuiltinRemedy.readme.Serves bytes := by
  refine ⟨_, Utf8.decode_encode h, ?_⟩
  -- the last sentence alone is long enough
  obtain ⟨init, hinit⟩ : ∃ init, Remedies.readmeText name = init ++ Text.ofString
      "Follow the coding standards and add tests for any new functionality.\n" := ⟨_, rfl⟩
  have hlast : Settings.default.readmeMinLength ≤ ((Text.ofString
      "Follow the coding standards and add tests for any new functionality.\n").filter
        fun c => !c.isBlank).length := by decide
  have hlen := List.length_filter_le (fun c : CodePoint => !c.isBlank)
    (Remedies.readmeText name).uniformLineEnds.trim
  rw [Text.filter_trim, Text.filter_uniformLineEnds, hinit, List.filter_append,
    List.length_append] at hlen
  rw [hinit]
  omega

theorem serves_typeConfig {bytes : List UInt8}
    (h : Utf8.encode (Json.document (.obj Remedies.typeConfigTemplate)) = .ok bytes) :
    BuiltinRemedy.typeConfig.Serves bytes := by
  refine ⟨_, Utf8.decode_encode h, ?_, ?_⟩
  · rw [Text.isBlank_uniformLineEnds]
    decide +kernel
  · decide +kernel

/-- **What the plan of a remedy writes satisfies its check.** -/
theorem serves_of_plan {r : BuiltinRemedy} (h : r.plan site v = .ok actions)
    (hname : Declarable site.root.name) (ha : a ∈ actions) {content : Text}
    (hcontent : a.content = some content) {bytes : List UInt8}
    (hbytes : Utf8.encode content = .ok bytes) : r.Serves bytes := by
  have hsame := Repair.contentBytes_of_ok hbytes
  cases r with
  | manifest =>
    rcases of_completeManifest h hname with ⟨rfl, -⟩ | ⟨ms, hms, hcomplete⟩
    · cases ha
    · obtain rfl := Option.some.inj (hcontent.symm.trans (hms.of_mem ha))
      exact hsame ▸ serves_document hms.readable (.inl ⟨rfl, hcomplete⟩)
  | buildScript =>
    obtain ⟨ms, hms, hbuilds⟩ := of_addBuildScript h
    obtain rfl := Option.some.inj (hcontent.symm.trans (hms.of_mem ha))
    exact hsame ▸ serves_document hms.readable (.inr ⟨rfl, hbuilds⟩)
  | readme =>
    obtain ⟨name, -, rfl⟩ := writeReadme_eq_ok.mp h
    rw [List.mem_singleton.mp ha] at hcontent
    obtain rfl := Option.some.inj hcontent
    exact serves_readmeText hbytes
  | typeConfig =>
    obtain rfl := Option.some.inj (hcontent.symm.trans (content_typeConfig h ha))
    exact serves_typeConfig hbytes
  | testDirectory => trivial
  | ignoreFile => trivial

/-- **A remedy that rewrites the manifest keeps what satisfies the other check of it.** -/
theorem keeps_of_plan {r r' : BuiltinRemedy} (h : r'.plan site v = .ok actions)
    (hname : Declarable site.root.name) (hr : r = .manifest ∨ r = .buildScript)
    (hr' : r' = .manifest ∨ r' = .buildScript) (ha : a ∈ actions) {content : Text}
    (hcontent : a.content = some content) {old : List UInt8}
    (hold : site.tree.read (manifestPath site.settings site.root) = .ok old)
    (hserves : r.Serves old) : r.Serves (Repair.contentBytes content) := by
  obtain ⟨ms', hms'⟩ : ∃ ms', Rewrites site actions ms' := by
    rcases hr' with rfl | rfl
    · rcases of_completeManifest h hname with ⟨rfl, -⟩ | ⟨ms', hms', -⟩
      · cases ha
      · exact ⟨ms', hms'⟩
    · obtain ⟨ms', hms', -⟩ := of_addBuildScript h
      exact ⟨ms', hms'⟩
  obtain rfl := Option.some.inj (hcontent.symm.trans (hms'.of_mem ha))
  have hfound : ∀ {ms : Members}, ManifestBytes old ms → Remedies.manifest? site = .ok (some ms) :=
    fun hms => manifest?_eq_some.mpr ((readManifest_of_read hold).mpr hms)
  rcases hr with rfl | rfl
  · obtain ⟨ms, hms, hcomplete⟩ := hserves
    exact serves_document hms'.readable (.inl ⟨rfl, hms'.complete ms (hfound hms) hcomplete⟩)
  · obtain ⟨ms, hms, hbuilds⟩ := hserves
    exact serves_document hms'.readable (.inr ⟨rfl, hms'.builds ms (hfound hms) hbuilds⟩)

/-- A plan ends with the file of its remedy, unless the manifest turns out to be complete. -/
theorem last_of_plan {r : BuiltinRemedy} (h : r.plan site v = .ok actions)
    (hname : Declarable site.root.name) :
    (∃ init last, actions = init ++ [last] ∧ last.path = some (r.file site.settings) ∧
      last.content.isSome) ∨
    (r = .manifest ∧ actions = [] ∧
      ∃ ms, Remedies.manifest? site = .ok (some ms) ∧ Complete ms) := by
  cases r with
  | manifest =>
    rcases of_completeManifest h hname with ⟨rfl, ms, hms⟩ | ⟨ms, hms, -⟩
    · exact .inr ⟨rfl, rfl, ms, hms⟩
    · obtain ⟨description, rfl⟩ := hms.actions
      exact .inl ⟨[], _, rfl, rfl, rfl⟩
  | readme =>
    obtain ⟨name, -, rfl⟩ := writeReadme_eq_ok.mp h
    exact .inl ⟨[], _, rfl, rfl, rfl⟩
  | typeConfig =>
    cases h
    exact .inl ⟨[], _, rfl, rfl, rfl⟩
  | testDirectory =>
    obtain ⟨name, -, rfl⟩ := addTests_eq_ok.mp h
    exact .inl ⟨[_], _, rfl, rfl, rfl⟩
  | buildScript =>
    obtain ⟨ms, hms, -⟩ := of_addBuildScript h
    obtain ⟨description, rfl⟩ := hms.actions
    exact .inl ⟨[], _, rfl, rfl, rfl⟩
  | ignoreFile =>
    cases h
    exact .inl ⟨[], _, rfl, rfl, rfl⟩

end

end PackageAudit
