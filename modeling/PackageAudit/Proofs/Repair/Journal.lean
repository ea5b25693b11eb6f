import PackageAudit.Proofs.Repair.Backup
import PackageAudit.Proofs.Tree.Access
import PackageAudit.Repair.Run

/-! # The journal of a repair run

`performedIn` lists the actions that a run carries out, each with the bench that it is carried out
on, and `journal` the changes that they make. Both follow the run: a plan stops at its first failing
action, a run at its first fault that is no failure of a repair.

* `performedIn_keeps`: what every action keeps holds wherever an action is carried out, and the run
  keeps it.
* `account_repairAll`: the journal accounts for the tree that a run leaves, whether it ends with
  outcomes or with a fault.
-/

namespace PackageAudit

open PackageAudit.Tree (Change Account Sound)

theorem eq_ok_of_toOption {ε α : Type} {r : Except ε α} {a : α} (h : r.toOption = some a) :
    r = .ok a := by
  cases r with
  | error e => cases h
  | ok found => rw [Option.some.inj h]

/-- A plan whose root and whose backup directory are paths from the root that were read. -/
structure Repair.Plan.Rooted (p : Repair.Plan) : Prop where
  root : p.root.Proper
  rootAbsolute : p.root.isAbsolute = true
  backups : p.backupFolder.Proper

theorem Repair.Plan.Rooted.backupsAbsolute {p : Repair.Plan} (h : p.Rooted) :
    p.backupFolder.isAbsolute = true := Path.isAbsolute_join _ h.rootAbsolute

/-- The path that a text is from the root of a plan. -/
def Repair.Plan.target (p : Repair.Plan) (path : Text) : Path := p.root.join (.ofText path)

theorem Repair.Plan.Rooted.target {p : Repair.Plan} (h : p.Rooted) (path : Text) :
    (p.target path).Proper ∧ (p.target path).isAbsolute = true :=
  ⟨h.root.join (Path.proper_ofText path), Path.isAbsolute_join _ h.rootAbsolute⟩

namespace Repair

/-! ## The changes of one action -/

/-- The bytes that are written for a content. -/
def contentBytes (content : Text) : List UInt8 :=
  match Utf8.encode content with
  | .ok bytes => bytes
  | .error _ => []

theorem contentBytes_of_ok {content : Text} {bytes : List UInt8}
    (h : Utf8.encode content = .ok bytes) : contentBytes content = bytes := by
  unfold contentBytes
  rw [h]

/-- What `writeContent` changes. -/
def contentChanges (b : Bench) (target : Path) (content : Text) : List Change :=
  match b.tree.write target (contentBytes content) with
  | .ok _ => [.written target (contentBytes content)]
  | .error _ => []

/-- What `writeFile` changes. -/
def fileChanges (b : Bench) (target : Path) (content : Text) : List Change :=
  .made target.parent ::
    match b.tree.makeFolders target.parent with
    | (t, none) => contentChanges (b.withTree t) target content
    | (_, some _) => []

/-- Where `Bench.backUp` puts the copy of a file, if no directory is in the way. -/
def backupPath (folder : Path) (path : Text) (stamp : Nat) : Path :=
  ⟨folder.anchor, folder.parts ++ [backupName path stamp]⟩

/-- What `Bench.backUp` changes. -/
def backupChanges (b : Bench) (root : Path) (path : Text) (folder : Path) : List Change :=
  let source := root.join (.ofText path)
  let target := backupPath folder path b.clock
  .made folder ::
    match b.tree.makeFolders folder with
    | (t, none) =>
      match t.copy source target.toText with
      | .ok _ => [.copied (t.copyPath source target) ((t.read source).toOption.getD [])]
      | .error _ => []
    | (_, some _) => []

/-- What `writeOver` changes. -/
def overChanges (p : Plan) (b : Bench) (path content : Text) : List Change :=
  if p.options.backupFiles then
    match b.tree.isFile (p.target path) with
    | .error _ => []
    | .ok false => fileChanges b (p.target path) content
    | .ok true =>
      backupChanges b p.root path p.backupFolder ++
        match b.backUp p.root path p.backupFolder with
        | (b, .ok _) => fileChanges b (p.target path) content
        | (_, .error _) => []
  else fileChanges b (p.target path) content

/-- What an action changes. -/
def changesOf (p : Plan) (b : Bench) (a : Action) : List Change :=
  match a.path, a.content with
  | none, _ => []
  | some path, some content => overChanges p b path content
  | some path, none => [.made (p.target path)]

section
variable {p : Plan} {b : Bench}

theorem writeContent_tree (b : Bench) (target : Path) (content : Text) :
    (writeContent b target content).1 =
      match b.tree.write target (contentBytes content) with
      | .ok t => b.withTree t
      | .error _ => b := by
  unfold writeContent contentBytes
  cases Utf8.encode content with
  | ok bytes =>
    simp only
    cases b.tree.write target bytes <;> rfl
  | error e =>
    simp only
    cases b.tree.write target [] <;> rfl

theorem account_writeContent (hs : Sound b.tree) (target : Path) (content : Text) :
    Account b.tree (contentChanges b target content) (writeContent b target content).1.tree := by
  rw [writeContent_tree, contentChanges]
  cases hw : b.tree.write target (contentBytes content) with
  | error f => exact .nil hs
  | ok t => exact Tree.account_write hs hw

theorem account_writeFile (hs : Sound b.tree) (target : Path) (content : Text) :
    Account b.tree (fileChanges b target content) (writeFile b target content).1.tree := by
  unfold fileChanges writeFile
  cases hm : b.tree.makeFolders target.parent with
  | mk t f =>
    have ha := Tree.account_makeFolders hs hm
    cases f with
    | some f => exact ha
    | none => exact ha.trans (account_writeContent (b := b.withTree t) ha.sound target content)

theorem backupPath_proper {folder : Path} (h : folder.Proper) (path : Text) (stamp : Nat) :
    (backupPath folder path stamp).Proper :=
  h.append (by simpa using (isStep_backupName path stamp).1)

theorem backUp_eq (b : Bench) (root : Path) (path : Text) (folder : Path) :
    b.backUp root path folder =
      match b.tree.makeFolders folder with
      | (t, some f) => (⟨t, b.clock + 1⟩, .error f)
      | (t, none) =>
        match t.copy (root.join (.ofText path)) (backupPath folder path b.clock).toText with
        | .error f => (⟨t, b.clock + 1⟩, .error f)
        | .ok t => (⟨t, b.clock + 1⟩, .ok (backupPath folder path b.clock)) :=
  rfl

theorem backUp_eq_ok {root folder copyPath : Path} {path : Text} {b' : Bench} :
    b.backUp root path folder = (b', .ok copyPath) ↔
      ∃ t t', b.tree.makeFolders folder = (t, none) ∧
        t.copy (root.join (.ofText path)) (backupPath folder path b.clock).toText = .ok t' ∧
        b' = ⟨t', b.clock + 1⟩ ∧ copyPath = backupPath folder path b.clock := by
  rw [backUp_eq]
  obtain ⟨t, _ | f⟩ := b.tree.makeFolders folder
  · simp only [Prod.mk.injEq, and_true, exists_and_left, exists_eq_left']
    cases t.copy (root.join (.ofText path)) (backupPath folder path b.clock).toText <;>
      simp [eq_comm]
  · simp

/-- A backup that is refused has made directories only. -/
theorem of_backUp_error {root folder : Path} {path : Text} {b' : Bench} {f : FileFault}
    (h : b.backUp root path folder = (b', .error f)) :
    b'.tree = (b.tree.makeFolders folder).1 := by
  rw [backUp_eq] at h
  split at h
  · next hm =>
    cases h
    rw [hm]
  · next hm =>
    split at h <;> cases h
    rw [hm]

theorem account_backUp (hs : Sound b.tree) {root folder : Path} {path : Text}
    (hr : (root.join (.ofText path)).Proper) (hf : folder.Proper)
    (hfa : folder.isAbsolute = true) :
    Account b.tree (backupChanges b root path folder) (b.backUp root path folder).1.tree := by
  rw [backUp_eq, backupChanges]
  cases hm : b.tree.makeFolders folder with
  | mk t f =>
    have ha := Tree.account_makeFolders hs hm
    cases f with
    | some f => exact ha
    | none =>
      simp only
      cases hc : t.copy (root.join (.ofText path)) (backupPath folder path b.clock).toText with
      | error f => exact ha
      | ok t' =>
        obtain ⟨bytes, hread, hac⟩ := Tree.account_copy ha.sound hr
          (backupPath_proper hf path b.clock) hfa hc
        rw [hread]
        exact ha.trans hac

/-- The answer to a write whose old content went to `kept`. -/
def finished (r : Bench × Option FileFault) (kept : Option Text) :
    Bench × Except FileFault (Option Text) :=
  match r with
  | (b, none) => (b, .ok kept)
  | (b, some f) => (b, .error f)

theorem finished_fst (r : Bench × Option FileFault) (kept : Option Text) :
    (finished r kept).1 = r.1 := by
  obtain ⟨b, _ | f⟩ := r <;> rfl

theorem finished_eq_ok {r : Bench × Option FileFault} {kept kept' : Option Text} {b' : Bench} :
    finished r kept = (b', .ok kept') ↔ r = (b', none) ∧ kept = kept' := by
  obtain ⟨b, _ | f⟩ := r <;> simp [finished]

theorem of_finished_error {r : Bench × Option FileFault} {kept : Option Text} {f : FileFault}
    (h : (finished r kept).2 = .error f) : r.2 = some f := by
  obtain ⟨b, _ | f'⟩ := r
  · cases h
  · cases h
    rfl

theorem writeOver_eq (p : Plan) (b : Bench) (path content : Text) :
    writeOver p b path content =
      if p.options.backupFiles then
        match b.tree.isFile (p.target path) with
        | .error f => (b, .error f)
        | .ok false => finished (writeFile b (p.target path) content) none
        | .ok true =>
          match b.backUp p.root path p.backupFolder with
          | (b, .error f) => (b, .error f)
          | (b, .ok copyPath) =>
            finished (writeFile b (p.target path) content) (some copyPath.toText)
      else finished (writeFile b (p.target path) content) none :=
  rfl

theorem writeOver_fst (p : Plan) (b : Bench) (path content : Text) :
    (writeOver p b path content).1 =
      if p.options.backupFiles then
        match b.tree.isFile (p.target path) with
        | .error _ => b
        | .ok false => (writeFile b (p.target path) content).1
        | .ok true =>
          match b.backUp p.root path p.backupFolder with
          | (b, .error _) => b
          | (b, .ok _) => (writeFile b (p.target path) content).1
      else (writeFile b (p.target path) content).1 := by
  rw [writeOver_eq]
  split
  · cases b.tree.isFile (p.target path) with
    | error f => rfl
    | ok there =>
      cases there with
      | false => exact finished_fst _ none
      | true =>
        cases b.backUp p.root path p.backupFolder with
        | mk b' r =>
          cases r with
          | error f => rfl
          | ok copyPath => exact finished_fst _ _
  · exact finished_fst _ none

theorem account_writeOver (hp : p.Rooted) (hs : Sound b.tree) (path content : Text) :
    Account b.tree (overChanges p b path content) (writeOver p b path content).1.tree := by
  rw [writeOver_fst, overChanges]
  split
  · split
    · exact .nil hs
    · exact account_writeFile hs _ content
    · have ha := account_backUp hs (hp.target path).1 hp.backups hp.backupsAbsolute
      cases hb : b.backUp p.root path p.backupFolder with
      | mk b' r =>
        rw [hb] at ha
        cases r with
        | error f => exact ha.trans (.nil ha.sound)
        | ok copyPath => exact ha.trans (account_writeFile ha.sound _ content)
  · exact account_writeFile hs _ content

/-- The changes of an action are all that it does, also when it fails. -/
theorem account_perform (hp : p.Rooted) (hs : Sound b.tree) (a : Action) :
    Account b.tree (changesOf p b a) (perform p b a).1.tree := by
  unfold changesOf perform
  cases a.path with
  | none => exact .nil hs
  | some path =>
    cases a.content with
    | some content => exact account_writeOver hp hs path content
    | none =>
      simp only [Plan.target]
      cases hm : b.tree.makeFolders (p.root.join (.ofText path)) with
      | mk t f =>
        have ha := Tree.account_makeFolders hs hm
        cases f with
        | none => exact ha
        | some f => exact ha

end

/-- The changes that an action for a path may make: directories, its content, the copy of what was
there. -/
inductive Effect (p : Plan) (b : Bench) (path : Text) : Option Text → Change → Prop
  | folder : Effect p b path none (.made (p.target path))
  | parent {content : Text} : Effect p b path (some content) (.made (p.target path).parent)
  | content {content : Text} :
    Effect p b path (some content) (.written (p.target path) (contentBytes content))
  | backups {content : Text} (h : p.options.backupFiles = true) :
    Effect p b path (some content) (.made p.backupFolder)
  | copy {content : Text} (h : p.options.backupFiles = true)
    (hm : (b.tree.makeFolders p.backupFolder).2 = none) (bytes : List UInt8) :
    Effect p b path (some content) (.copied ((b.tree.makeFolders p.backupFolder).1.copyPath
      (p.target path) (backupPath p.backupFolder path b.clock)) bytes)

theorem mem_fileChanges {b : Bench} {target : Path} {content : Text} {c : Change}
    (h : c ∈ fileChanges b target content) :
    c = .made target.parent ∨
      (c = .written target (contentBytes content) ∧ Tree.vet target.toText = .ok ()) := by
  rcases List.mem_cons.mp h with rfl | h
  · exact .inl rfl
  · split at h
    · unfold contentChanges at h
      split at h
      · next hw =>
        exact .inr ⟨List.mem_singleton.mp h, (Tree.write_eq_ok.mp hw).1⟩
      · cases h
    · cases h

theorem effect_of_mem_fileChanges {p : Plan} {b b' : Bench} {path content : Text} {c : Change}
    (h : c ∈ fileChanges b' (p.target path) content) : Effect p b path (some content) c := by
  rcases mem_fileChanges h with rfl | ⟨rfl, -⟩
  · exact .parent
  · exact .content

theorem effect_of_mem_backupChanges {p : Plan} {b : Bench} {path content : Text} {c : Change}
    (hb : p.options.backupFiles = true) (h : c ∈ backupChanges b p.root path p.backupFolder) :
    Effect p b path (some content) c := by
  rcases List.mem_cons.mp h with rfl | h
  · exact .backups hb
  · split at h
    · next t hm =>
      split at h
      · obtain rfl := List.mem_singleton.mp h
        have ht : (b.tree.makeFolders p.backupFolder).1 = t := by rw [hm]
        exact ht ▸ .copy hb (by rw [hm]) _
      · cases h
    · cases h

theorem effect_of_mem_changesOf {p : Plan} {b : Bench} {a : Action} {c : Change}
    (h : c ∈ changesOf p b a) : ∃ path, a.path = some path ∧ Effect p b path a.content c := by
  unfold changesOf at h
  split at h
  · cases h
  · next path content hpath hcontent =>
    refine ⟨path, hpath, hcontent ▸ ?_⟩
    unfold overChanges at h
    split at h
    · next hb =>
      split at h
      · cases h
      · exact effect_of_mem_fileChanges h
      · rcases List.mem_append.mp h with h | h
        · exact effect_of_mem_backupChanges hb h
        · split at h
          · exact effect_of_mem_fileChanges h
          · cases h
    · exact effect_of_mem_fileChanges h
  · next path hpath hcontent =>
    obtain rfl := List.mem_singleton.mp h
    exact ⟨path, hpath, hcontent ▸ .folder⟩

/-! ## The actions of a run -/

/-- The actions that are carried out of a list, each with the bench that it is carried out on. -/
def performed (p : Plan) (b : Bench) : List Action → List (Bench × Action)
  | [] => []
  | a :: rest =>
    (b, a) ::
      match perform p b a with
      | (b, .ok _) => performed p b rest
      | (_, .error _) => []

/-- The plan that is carried out for a violation, if there is one. -/
def planned (p : Plan) (s : Progress) (v : Verdict) : Option (List Action) :=
  match gate p s.bench.tree (p.catalog.risk v.ruleId) v, p.remedies.find? v.ruleId with
  | none, some remedy =>
    match remedy ⟨s.bench.tree, p.root, p.settings⟩ v with
    | .ok actions =>
      if p.limit < (addTargets s.touched actions).length ∨ p.options.dryRun then none
      else some actions
    | .error _ => none
  | _, _ => none

/-- The actions that are carried out for a violation. -/
def performedFor (p : Plan) (s : Progress) (v : Verdict) : List (Bench × Action) :=
  match planned p s v with
  | some actions => performed p s.bench actions
  | none => []

/-- The actions that a run carries out, each with the bench that it is carried out on. -/
def performedIn (p : Plan) (s : Progress) : List Verdict → List (Bench × Action)
  | [] => []
  | v :: vs =>
    performedFor p s v ++
      match repairOne p s v with
      | (s, .ok _) => performedIn p s vs
      | (_, .error _) => []

/-- The changes that a run makes, in order. -/
def journal (p : Plan) (s : Progress) (vs : List Verdict) : List Change :=
  (performedIn p s vs).flatMap fun x => changesOf p x.1 x.2

section
variable {p : Plan}

theorem bench_carryOut (p : Plan) (s : Progress) (risk : Risk) (v : Verdict)
    (actions : List Action) :
    (carryOut p s risk v actions).1.bench =
      if p.limit < (addTargets s.touched actions).length ∨ p.options.dryRun then s.bench
      else (performAll p v.ruleId s.bench none actions).1 := by
  unfold carryOut
  simp only
  by_cases hl : p.limit < (addTargets s.touched actions).length
  · rw [if_pos hl, if_pos (.inl hl)]
  · rw [if_neg hl]
    by_cases hd : p.options.dryRun
    · rw [if_pos hd, if_pos (Or.inr hd : p.limit < _ ∨ p.options.dryRun = true)]
    · rw [if_neg hd, if_neg (not_or.mpr ⟨hl, hd⟩)]
      cases performAll p v.ruleId s.bench none actions with
      | mk b r =>
        cases r with
        | ok backup => rfl
        | error f =>
          cases f with
          | failure g => cases g <;> rfl
          | _ => rfl

theorem bench_repairOne (p : Plan) (s : Progress) (v : Verdict) :
    (repairOne p s v).1.bench =
      match planned p s v with
      | some actions => (performAll p v.ruleId s.bench none actions).1
      | none => s.bench := by
  unfold repairOne planned
  simp only
  cases gate p s.bench.tree (p.catalog.risk v.ruleId) v with
  | some reason => rfl
  | none =>
    cases p.remedies.find? v.ruleId with
    | none => rfl
    | some remedy =>
      simp only
      cases remedy ⟨s.bench.tree, p.root, p.settings⟩ v with
      | error f =>
        cases f with
        | failure g => cases g <;> rfl
        | _ => rfl
      | ok actions =>
        simp only [bench_carryOut]
        split
        · rfl
        · rfl

theorem mem_of_find? {rs : Remedies} {id : Text} {r : Remedy} (h : rs.find? id = some r) :
    (id, r) ∈ rs := by
  obtain ⟨x, hx, rfl⟩ := Option.map_eq_some_iff.mp h
  have hid : x.1 = id := by simpa using List.find?_some hx
  exact hid ▸ List.mem_of_find?_eq_some hx

theorem of_planned {s : Progress} {v : Verdict} {actions : List Action}
    (h : planned p s v = some actions) :
    ∃ remedy, p.remedies.find? v.ruleId = some remedy ∧
      remedy ⟨s.bench.tree, p.root, p.settings⟩ v = .ok actions ∧
      gate p s.bench.tree (p.catalog.risk v.ruleId) v = none ∧ p.options.dryRun = false := by
  unfold planned at h
  split at h
  · next remedy hg hr =>
    split at h
    · next ha =>
      split at h
      · cases h
      · next hl =>
        cases h
        exact ⟨remedy, hr, ha, hg, by simpa using (not_or.mp hl).2⟩
    · cases h
  · cases h

/-! ## From one action to a run -/

section
variable {b b' : Bench} {a : Action} {backup : Option Text} {f : FileFault}

theorem performed_cons_of_ok (h : perform p b a = (b', .ok backup)) (rest : List Action) :
    performed p b (a :: rest) = (b, a) :: performed p b' rest := by
  rw [performed, h]

theorem performed_cons_of_error (h : perform p b a = (b', .error f)) (rest : List Action) :
    performed p b (a :: rest) = [(b, a)] := by
  rw [performed, h]

theorem mem_performed_cons {rest : List Action} {x : Bench × Action} :
    x ∈ performed p b (a :: rest) ↔
      x = (b, a) ∨ ∃ b' backup, perform p b a = (b', .ok backup) ∧ x ∈ performed p b' rest := by
  cases hpf : perform p b a with
  | mk b' r =>
    cases r with
    | ok backup => simp [performed_cons_of_ok hpf]
    | error f => simp [performed_cons_of_error hpf]

theorem performAll_cons_of_ok (h : perform p b a = (b', .ok backup)) (ruleId : Text)
    (kept : Option Text) (rest : List Action) :
    performAll p ruleId b kept (a :: rest) = performAll p ruleId b' (kept.or backup) rest := by
  rw [performAll, h]

theorem exists_perform_of_performAll {ruleId : Text} {before kept : Option Text}
    {rest : List Action} (h : (performAll p ruleId b before (a :: rest)).2 = .ok kept) :
    ∃ b' backup, perform p b a = (b', .ok backup) := by
  rw [performAll] at h
  cases hpf : perform p b a with
  | mk b' r =>
    rw [hpf] at h
    cases r with
    | ok backup => exact ⟨b', backup, rfl⟩
    | error f =>
      simp only at h
      split at h <;> cases h

end

theorem performAll_cons_fst (ruleId : Text) (b : Bench) (kept : Option Text) (a : Action)
    (rest : List Action) : (performAll p ruleId b kept (a :: rest)).1 =
      match perform p b a with
      | (b', .ok backup) => (performAll p ruleId b' (kept.or backup) rest).1
      | (b', .error _) => b' := by
  rw [performAll]
  cases perform p b a with
  | mk b' r =>
    cases r with
    | ok backup => rfl
    | error f =>
      simp only
      split <;> rfl

theorem mem_performedFor {s : Progress} {v : Verdict} {x : Bench × Action} :
    x ∈ performedFor p s v ↔
      ∃ actions, planned p s v = some actions ∧ x ∈ performed p s.bench actions := by
  unfold performedFor
  cases planned p s v with
  | none => simp
  | some actions => simp

section
variable {s s' : Progress} {v : Verdict} {out : RepairOutcome} {f : Fault}

theorem performedIn_cons_of_ok (h : repairOne p s v = (s', .ok out)) (vs : List Verdict) :
    performedIn p s (v :: vs) = performedFor p s v ++ performedIn p s' vs := by
  rw [performedIn, h]

theorem performedIn_cons_of_error (h : repairOne p s v = (s', .error f)) (vs : List Verdict) :
    performedIn p s (v :: vs) = performedFor p s v := by
  rw [performedIn, h, List.append_nil]

theorem mem_performedIn_cons {vs : List Verdict} {x : Bench × Action} :
    x ∈ performedIn p s (v :: vs) ↔ x ∈ performedFor p s v ∨
      ∃ s' out, repairOne p s v = (s', .ok out) ∧ x ∈ performedIn p s' vs := by
  cases ho : repairOne p s v with
  | mk s' r =>
    cases r with
    | ok out => simp [performedIn_cons_of_ok ho]
    | error f => simp [performedIn_cons_of_error ho]

end

theorem repairAll_cons_fst (s : Progress) (v : Verdict) (vs : List Verdict) :
    (repairAll p s (v :: vs)).1 =
      match repairOne p s v with
      | (s', .ok _) => (repairAll p s' vs).1
      | (s', .error _) => s' := by
  rw [repairAll]
  cases repairOne p s v with
  | mk s' r =>
    cases r with
    | error f => rfl
    | ok o =>
      simp only
      cases repairAll p s' vs with
      | mk s'' r' => cases r' <;> rfl

/-- What every action of a plan keeps holds wherever one of them is carried out, and of what the plan
leaves. -/
theorem performed_keeps {motive : Bench → Prop} (ruleId : Text) {b : Bench}
    (kept : Option Text) {actions : List Action} (h : motive b)
    (step : ∀ x ∈ performed p b actions, motive x.1 → motive (perform p x.1 x.2).1) :
    (∀ x ∈ performed p b actions, motive x.1) ∧
      motive (performAll p ruleId b kept actions).1 := by
  induction actions generalizing b kept with
  | nil => exact ⟨nofun, h⟩
  | cons a rest ih =>
    have hb := step (b, a) List.mem_cons_self h
    rw [performAll_cons_fst]
    cases hpf : perform p b a with
    | mk b' r =>
      rw [hpf] at hb
      cases r with
      | ok backup =>
        rw [performed_cons_of_ok hpf] at step ⊢
        obtain ⟨hrest, hleft⟩ := ih (kept.or backup) hb
          fun x hx => step x (List.mem_cons_of_mem (b, a) hx)
        exact ⟨List.forall_mem_cons.mpr ⟨h, hrest⟩, hleft⟩
      | error f =>
        rw [performed_cons_of_error hpf]
        exact ⟨List.forall_mem_singleton.mpr h, hb⟩

theorem performAll_induct {motive : Bench → Prop} (ruleId : Text) {b : Bench}
    {kept : Option Text} {actions : List Action} (h : motive b)
    (step : ∀ x ∈ performed p b actions, motive x.1 → motive (perform p x.1 x.2).1) :
    motive (performAll p ruleId b kept actions).1 := (performed_keeps ruleId kept h step).2

theorem performed_induct {motive : Bench → Prop} {b : Bench} {actions : List Action} (h : motive b)
    (step : ∀ x ∈ performed p b actions, motive x.1 → motive (perform p x.1 x.2).1) :
    ∀ x ∈ performed p b actions, motive x.1 := (performed_keeps [] none h step).1

theorem performedFor_keeps {motive : Bench → Prop} {s : Progress} {v : Verdict}
    (h : motive s.bench)
    (step : ∀ x ∈ performedFor p s v, motive x.1 → motive (perform p x.1 x.2).1) :
    (∀ x ∈ performedFor p s v, motive x.1) ∧ motive (repairOne p s v).1.bench := by
  rw [bench_repairOne]
  unfold performedFor at step ⊢
  cases hplan : planned p s v with
  | none => exact ⟨nofun, h⟩
  | some actions =>
    rw [hplan] at step
    exact performed_keeps v.ruleId none h step

/-- The same of the actions of a run, also when it ends with a fault. -/
theorem performedIn_keeps {motive : Bench → Prop} {s : Progress} {vs : List Verdict}
    (h : motive s.bench)
    (step : ∀ x ∈ performedIn p s vs, motive x.1 → motive (perform p x.1 x.2).1) :
    (∀ x ∈ performedIn p s vs, motive x.1) ∧ motive (repairAll p s vs).1.bench := by
  induction vs generalizing s with
  | nil => exact ⟨nofun, h⟩
  | cons v vs ih =>
    obtain ⟨hfor, hone⟩ := performedFor_keeps h fun x hx => step x (List.mem_append_left _ hx)
    rw [repairAll_cons_fst]
    cases ho : repairOne p s v with
    | mk s' r =>
      rw [ho] at hone
      cases r with
      | ok out =>
        rw [performedIn_cons_of_ok ho] at step ⊢
        obtain ⟨hrest, hleft⟩ := ih hone fun x hx => step x (List.mem_append_right _ hx)
        exact ⟨List.forall_mem_append.mpr ⟨hfor, hrest⟩, hleft⟩
      | error f =>
        rw [performedIn_cons_of_error ho]
        exact ⟨hfor, hone⟩

/-- **What every action keeps, the run keeps**, also when it ends with a fault. -/
theorem repairAll_induct {motive : Bench → Prop} {s : Progress} {vs : List Verdict}
    (h : motive s.bench)
    (step : ∀ x ∈ performedIn p s vs, motive x.1 → motive (perform p x.1 x.2).1) :
    motive (repairAll p s vs).1.bench := (performedIn_keeps h step).2

/-- What every action keeps holds wherever an action is carried out. -/
theorem performedIn_induct {motive : Bench → Prop} {s : Progress} {vs : List Verdict}
    (h : motive s.bench)
    (step : ∀ x ∈ performedIn p s vs, motive x.1 → motive (perform p x.1 x.2).1) :
    ∀ x ∈ performedIn p s vs, motive x.1 := (performedIn_keeps h step).1

theorem mem_performed {b : Bench} {actions : List Action} {x : Bench × Action}
    (h : x ∈ performed p b actions) : x.2 ∈ actions := by
  induction actions generalizing b with
  | nil => cases h
  | cons a rest ih =>
    rcases mem_performed_cons.mp h with rfl | ⟨b', backup, -, h⟩
    · exact List.mem_cons_self
    · exact List.mem_cons_of_mem a (ih h)

theorem mem_performedIn {s : Progress} {vs : List Verdict} {x : Bench × Action}
    (h : x ∈ performedIn p s vs) :
    ∃ s' v actions, v ∈ vs ∧ planned p s' v = some actions ∧ x.2 ∈ actions := by
  induction vs generalizing s with
  | nil => cases h
  | cons v vs ih =>
    rcases mem_performedIn_cons.mp h with h | ⟨s₁, out, -, h⟩
    · obtain ⟨actions, hplan, hx⟩ := mem_performedFor.mp h
      exact ⟨s, v, actions, List.mem_cons_self, hplan, mem_performed hx⟩
    · obtain ⟨s', v', actions, hv, hrest⟩ := ih h
      exact ⟨s', v', actions, List.mem_cons_of_mem v hv, hrest⟩

section
variable {R : Bench → Bench → Prop} (hr : ∀ b, R b b)
  (ht : ∀ {b₁ b₂ b₃}, R b₁ b₂ → R b₂ b₃ → R b₁ b₃) (step : ∀ b a, R b (perform p b a).1)

include hr ht step

/-- What every action does to a bench, and what can be put together, leads from the first bench to
each one that an action is carried out on, and from there to the last. -/
theorem performed_between (ruleId : Text) {b : Bench} (kept : Option Text)
    {actions : List Action} : ∀ x ∈ performed p b actions, R b x.1 ∧
      R (perform p x.1 x.2).1 (performAll p ruleId b kept actions).1 := by
  induction actions generalizing b kept with
  | nil => exact nofun
  | cons a rest ih =>
    have hstep := step b a
    rw [performAll_cons_fst]
    cases hpf : perform p b a with
    | mk b' r =>
      rw [hpf] at hstep
      cases r with
      | ok backup =>
        rw [performed_cons_of_ok hpf]
        have hrest : R b' (performAll p ruleId b' (kept.or backup) rest).1 :=
          performAll_induct (motive := R b') ruleId (hr b') fun y _ hy => ht hy (step y.1 y.2)
        refine List.forall_mem_cons.mpr ⟨⟨hr b, by rwa [hpf]⟩, fun x hx => ?_⟩
        obtain ⟨hbefore, hafter⟩ := ih _ x hx
        exact ⟨ht hstep hbefore, hafter⟩
      | error f =>
        rw [performed_cons_of_error hpf]
        exact List.forall_mem_singleton.mpr ⟨hr b, by simpa only [hpf] using hr b'⟩

theorem performedFor_between {s : Progress} {v : Verdict} :
    ∀ x ∈ performedFor p s v, R s.bench x.1 ∧
      R (perform p x.1 x.2).1 (repairOne p s v).1.bench := by
  intro x hx
  obtain ⟨actions, hplan, hx⟩ := mem_performedFor.mp hx
  rw [bench_repairOne, hplan]
  exact performed_between hr ht step v.ruleId none x hx

theorem repairOne_leads (s : Progress) (v : Verdict) : R s.bench (repairOne p s v).1.bench :=
  (performedFor_keeps (hr _) fun y _ hy => ht hy (step y.1 y.2)).2

theorem performedIn_between {s : Progress} {vs : List Verdict} :
    ∀ x ∈ performedIn p s vs, R s.bench x.1 ∧
      R (perform p x.1 x.2).1 (repairAll p s vs).1.bench := by
  induction vs generalizing s with
  | nil => exact nofun
  | cons v vs ih =>
    have hfor := performedFor_between hr ht step (s := s) (v := v)
    have hone := repairOne_leads hr ht step s v
    rw [repairAll_cons_fst]
    cases ho : repairOne p s v with
    | mk s' r =>
      rw [ho] at hfor hone
      cases r with
      | ok out =>
        have hrest : R s'.bench (repairAll p s' vs).1.bench :=
          repairAll_induct (hr _) fun y _ hy => ht hy (step y.1 y.2)
        rw [performedIn_cons_of_ok ho]
        refine List.forall_mem_append.mpr ⟨fun x hx => ?_, fun x hx => ?_⟩
        · obtain ⟨hbefore, hafter⟩ := hfor x hx
          exact ⟨hbefore, ht hafter hrest⟩
        · obtain ⟨hbefore, hafter⟩ := ih x hx
          exact ⟨ht hone hbefore, hafter⟩
      | error f =>
        rw [performedIn_cons_of_error ho]
        exact hfor

theorem performed_pairwise {b : Bench} {actions : List Action} :
    (performed p b actions).Pairwise fun x y => R (perform p x.1 x.2).1 y.1 := by
  induction actions generalizing b with
  | nil => exact .nil
  | cons a rest ih =>
    cases hpf : perform p b a with
    | mk b' r =>
      cases r with
      | ok backup =>
        rw [performed_cons_of_ok hpf]
        refine List.pairwise_cons.mpr ⟨fun y hy => ?_, ih⟩
        rw [hpf]
        exact (performed_between hr ht step [] none y hy).1
      | error f =>
        rw [performed_cons_of_error hpf]
        exact List.pairwise_singleton _ _

/-- What every action does to a bench leads from one action of a run to the next. -/
theorem performedIn_pairwise {s : Progress} {vs : List Verdict} :
    (performedIn p s vs).Pairwise fun x y => R (perform p x.1 x.2).1 y.1 := by
  induction vs generalizing s with
  | nil => exact .nil
  | cons v vs ih =>
    have hfor : (performedFor p s v).Pairwise fun x y => R (perform p x.1 x.2).1 y.1 := by
      unfold performedFor
      split
      · exact performed_pairwise hr ht step
      · exact .nil
    cases ho : repairOne p s v with
    | mk s' r =>
      cases r with
      | ok out =>
        rw [performedIn_cons_of_ok ho]
        refine List.pairwise_append.mpr ⟨hfor, ih, fun x hx y hy => ?_⟩
        have hend := (performedFor_between hr ht step x hx).2
        rw [ho] at hend
        exact ht hend (performedIn_between hr ht step y hy).1
      | error f =>
        rw [performedIn_cons_of_error ho]
        exact hfor

end

/-! ## The account of a run -/

theorem account_performAll (hp : p.Rooted) (ruleId : Text) {b : Bench} (hs : Sound b.tree)
    (kept : Option Text) (actions : List Action) :
    Account b.tree ((performed p b actions).flatMap fun x => changesOf p x.1 x.2)
      (performAll p ruleId b kept actions).1.tree := by
  induction actions generalizing b kept with
  | nil => exact .nil hs
  | cons a rest ih =>
    have ha := account_perform hp hs a
    rw [performAll_cons_fst, performed, List.flatMap_cons]
    cases hpf : perform p b a with
    | mk b' r =>
      rw [hpf] at ha
      cases r with
      | ok backup => exact ha.trans (ih ha.sound _)
      | error f => exact ha.trans (.nil ha.sound)

/-- **The journal accounts for what a run leaves.** -/
theorem account_repairAll (hp : p.Rooted) {s : Progress} (hs : Sound s.bench.tree)
    (vs : List Verdict) :
    Account s.bench.tree (journal p s vs) (repairAll p s vs).1.bench.tree := by
  induction vs generalizing s with
  | nil => exact .nil hs
  | cons v vs ih =>
    have hfirst : Account s.bench.tree
        ((performedFor p s v).flatMap fun x => changesOf p x.1 x.2)
        (repairOne p s v).1.bench.tree := by
      rw [bench_repairOne, performedFor]
      cases planned p s v with
      | none => exact .nil hs
      | some actions => exact account_performAll hp v.ruleId hs none actions
    rw [repairAll_cons_fst, journal, performedIn, List.flatMap_append]
    cases ho : repairOne p s v with
    | mk s' r =>
      rw [ho] at hfirst
      cases r with
      | error f => exact hfirst.trans (.nil hfirst.sound)
      | ok o => exact hfirst.trans (ih hfirst.sound)

section
variable {cat : Catalog} {rs : Remedies} {st : Settings} {b : Bench} {path : Text}
  {vs : List Verdict} {o : RepairOptions} {root : Path}

theorem repair_of_resolve (hroot : b.tree.resolve (.ofText path) = .ok root) :
    repair cat rs st b path vs o =
      match repairAll ⟨cat, rs, st, root, o⟩ ⟨b, []⟩ vs with
      | (s, .error f) => (s.bench, .error f)
      | (s, .ok outs) => (s.bench, .ok ⟨root.toText, o.dryRun, vs.length, outs⟩) := by
  unfold repair
  split
  · next hfault => rw [hroot] at hfault; cases hfault
  · next hok => rw [hroot] at hok; cases hok; rfl

theorem bench_repair (hroot : b.tree.resolve (.ofText path) = .ok root) :
    (repair cat rs st b path vs o).1 =
      (repairAll ⟨cat, rs, st, root, o⟩ ⟨b, []⟩ vs).1.bench := by
  rw [repair_of_resolve hroot]
  cases repairAll ⟨cat, rs, st, root, o⟩ ⟨b, []⟩ vs with
  | mk s r => cases r <;> rfl

theorem of_repair (hroot : b.tree.resolve (.ofText path) = .ok root) {summary : RepairSummary}
    (h : (repair cat rs st b path vs o).2 = .ok summary) :
    ∃ s, repairAll ⟨cat, rs, st, root, o⟩ ⟨b, []⟩ vs = (s, .ok summary.outcomes) ∧
      summary.packagePath = root.toText ∧ summary.dryRun = o.dryRun ∧ summary.total = vs.length := by
  rw [repair_of_resolve hroot] at h
  cases hall : repairAll ⟨cat, rs, st, root, o⟩ ⟨b, []⟩ vs with
  | mk s res =>
    rw [hall] at h
    cases res with
    | error f => cases h
    | ok outs =>
      cases h
      exact ⟨s, rfl, rfl, rfl, rfl⟩

end

end

end Repair

end PackageAudit
