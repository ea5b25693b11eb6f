import PackageAudit.Proofs.Repair.Carried
import PackageAudit.Proofs.Repair.Limit
import PackageAudit.Proofs.Repair.Written

/-! # What a summary counts

A summary counts the paths that its successes are about and the successes that have a copy. An outcome
is about one path and has one copy, so where a plan writes several files, or none, the counters are not
what has happened on disk.

* `countP_changesOf`: an action makes one copy, or none.
* `perm_plannedFiles`: what is written is what the paths of the plans lead to.
* `created_of_copied`: while stamps are ahead (`StampsAhead`) a copy is a new file in the backup
  directory, of its own (`nodup_copiedAt`).
* `counters_iff`: when the counters are right.
-/

namespace PackageAudit

open PackageAudit.Tree (Change Account Sound Grows)

namespace Tree.Change

/-- Does a change leave a copy? -/
def isCopy : Change → Bool
  | copied _ _ => true
  | _ => false

/-- Where a change has left a copy. -/
def copiedAt? (t : Tree) : Change → Option Location
  | copied q _ => t.landing q
  | _ => none

theorem isCopy_iff {c : Change} : c.isCopy = true ↔ ∃ q bytes, c = copied q bytes := by
  cases c <;> simp [isCopy]

theorem copiedAt?_eq_some {t : Tree} {c : Change} {k : Location} :
    c.copiedAt? t = some k ↔ ∃ q bytes, c = copied q bytes ∧ t.landing q = some k := by
  cases c <;> simp [copiedAt?]

end Tree.Change

/-! ## Counting -/

section
variable {α : Type}

/-- What counts for one at most is counted right if and only if nothing counts for more. -/
theorem countP_pos_eq_sum_iff (f : α → Nat) (xs : List α) :
    xs.countP (0 < f ·) = (xs.map f).sum ↔ ∀ x ∈ xs, f x ≤ 1 := by
  have hle : ∀ xs : List α, xs.countP (0 < f ·) ≤ (xs.map f).sum := by
    intro xs
    induction xs with
    | nil => exact Nat.le_refl 0
    | cons x xs ih =>
      rw [List.countP_cons, List.map_cons, List.sum_cons]
      split
      · next hx => simp only [decide_eq_true_eq] at hx; omega
      · omega
  induction xs with
  | nil => simp
  | cons x xs ih =>
    have hrest := hle xs
    rw [List.forall_mem_cons]
    refine Iff.trans ?_ (and_congr_right fun _ => ih)
    rw [List.countP_cons, List.map_cons, List.sum_cons]
    by_cases hx : 0 < f x
    · rw [if_pos (by simpa using hx)]
      omega
    · rw [if_neg (by simpa using hx)]
      omega

/-- Of paths that are said to lead to files those that lead to none of them, or where one before them
leads. -/
def surplus (lead : Text → Option Location) : List Location → List Text → List Text
  | _, [] => []
  | files, path :: paths =>
    match (lead path).filter files.contains with
    | some k => surplus lead (files.erase k) paths
    | none => path :: surplus lead files paths

/-- The files that none of the paths leads to. -/
def uncounted (lead : Text → Option Location) (files : List Location) (paths : List Text) :
    List Location :=
  files.filter fun k => paths.all fun path => lead path != some k

/-- Paths and files are as many as each other, but for those that are left over. -/
theorem length_surplus (lead : Text → Option Location) {files : List Location} (h : files.Nodup)
    (paths : List Text) : (surplus lead files paths).length + files.length =
      paths.length + (uncounted lead files paths).length := by
  induction paths generalizing files with
  | nil => simp [surplus, uncounted]
  | cons path paths ih =>
    unfold surplus
    split
    · next k hk =>
      obtain ⟨hlead, hmem⟩ := Option.filter_eq_some_iff.mp hk
      have hin : k ∈ files := by simpa using hmem
      have hleft : uncounted lead files (path :: paths) = uncounted lead (files.erase k) paths := by
        unfold uncounted
        rw [h.erase_eq_filter, List.filter_filter]
        refine List.filter_congr fun l _ => ?_
        simp only [List.all_cons, hlead]
        rw [Bool.and_comm]
        congr 1
        simp [bne, eq_comm, Bool.beq_eq_decide_eq]
      have hlength := List.length_erase_of_mem hin
      have hpos := List.length_pos_of_mem hin
      have hrest := ih (h.erase k)
      rw [hleft, List.length_cons]
      omega
    · next hnone =>
      have hleft : uncounted lead files (path :: paths) = uncounted lead files paths := by
        unfold uncounted
        refine List.filter_congr fun l hl => ?_
        have hne : (lead path != some l) = true := by
          rw [bne_iff_ne]
          intro hlead
          rw [hlead] at hnone
          simp [hl] at hnone
        rw [List.all_cons, hne, Bool.true_and]
      have hrest := ih h
      rw [hleft, List.length_cons, List.length_cons]
      omega

end

namespace Repair

section
variable {p : Plan} {b b' : Bench}

/-! ## The copies of an action -/

theorem countP_fileChanges (target : Path) (content : Text) :
    (fileChanges b target content).countP Change.isCopy = 0 := by
  refine List.countP_eq_zero.mpr fun c hc hcopy => ?_
  obtain ⟨q, bytes, rfl⟩ := Change.isCopy_iff.mp hcopy
  exact copied_notMem_fileChanges hc

/-- A backup that is made is one copy, and one that is refused is none. -/
theorem countP_backupChanges {root folder : Path} {path : Text} :
    (backupChanges b root path folder).countP Change.isCopy =
      match b.backUp root path folder with
      | (_, .ok _) => 1
      | (_, .error _) => 0 := by
  rw [backUp_eq, backupChanges, List.countP_cons_of_neg (by simp [Change.isCopy])]
  cases b.tree.makeFolders folder with
  | mk t f =>
    cases f with
    | some f => rfl
    | none =>
      simp only [backupPath]
      cases t.copy (root.join (.ofText path))
          (Path.mk folder.anchor (folder.parts ++ [backupName path b.clock])).toText <;> rfl

/-- **An action makes one copy, or none**: one exactly if it answers where it went. -/
theorem countP_changesOf {a : Action} :
    (changesOf p b a).countP Change.isCopy ≤ (targets [a]).length ∧
      ∀ kept, (perform p b a).2 = .ok kept →
        (changesOf p b a).countP Change.isCopy = kept.toList.length := by
  unfold changesOf perform
  cases hpath : a.path with
  | none => exact ⟨Nat.zero_le _, nofun⟩
  | some path =>
    cases hcontent : a.content with
    | none =>
      refine ⟨Nat.zero_le _, fun kept h => ?_⟩
      simp only at h
      split at h <;> cases h
      rfl
    | some content =>
      have hone : (targets [a]).length = 1 := by simp [targets, hcontent]
      have hfinished : ∀ {r : Bench × Option FileFault} {kept kept' : Option Text},
          (finished r kept).2 = .ok kept' → kept = kept' := fun h =>
        (finished_eq_ok.mp (Prod.ext rfl h)).2
      rw [hone]
      simp only [writeOver_eq, overChanges]
      split
      · cases b.tree.isFile (p.target path) with
        | error f => exact ⟨Nat.zero_le _, fun _ h => by cases h⟩
        | ok there =>
          cases there with
          | false =>
            simp only [countP_fileChanges]
            exact ⟨Nat.zero_le _, fun kept h => by rw [← hfinished h]; rfl⟩
          | true =>
            simp only [List.countP_append, countP_backupChanges]
            cases b.backUp p.root path p.backupFolder with
            | mk b₁ res =>
              cases res with
              | error f => exact ⟨Nat.zero_le _, fun _ h => by cases h⟩
              | ok copyPath =>
                simp only [countP_fileChanges]
                exact ⟨Nat.le_refl _, fun kept h => by rw [← hfinished h]; rfl⟩
      · simp only [countP_fileChanges]
        exact ⟨Nat.zero_le _, fun kept h => by rw [← hfinished h]; rfl⟩

/-! ## The copies and the files of a plan -/

/-- The number of copies that a plan makes. -/
def Carried.copies (p : Plan) (x : Carried) : Nat := (x.changes p).countP Change.isCopy

/-- A plan that ends well answers with a copy if and only if it has made one. -/
theorem isSome_performAll {ruleId : Text} {actions : List Action} {before kept : Option Text}
    (h : (performAll p ruleId b before actions).2 = .ok kept) : kept.isSome = true ↔
      before.isSome = true ∨
      0 < ((performed p b actions).flatMap fun y => changesOf p y.1 y.2).countP Change.isCopy := by
  induction actions generalizing b before with
  | nil =>
    cases h
    simp [performed]
  | cons a rest ih =>
    obtain ⟨b₁, backup, hpf⟩ := exists_perform_of_performAll h
    have hfirst := countP_changesOf.2 backup (congrArg Prod.snd hpf)
    rw [performAll_cons_of_ok hpf] at h
    rw [performed_cons_of_ok hpf, List.flatMap_cons, List.countP_append,
      Nat.add_pos_iff_pos_or_pos, ← or_assoc, ih h, hfirst]
    cases before <;> cases backup <;> simp

theorem Carried.isSome_kept {x : Carried} (h : (x.result p).2 = .ok (x.kept p)) :
    (x.kept p).isSome = true ↔ 0 < x.copies p :=
  (isSome_performAll h).trans (or_iff_right Bool.false_ne_true)

theorem performed_of_ok {ruleId : Text} {actions : List Action} {before kept : Option Text}
    (h : (performAll p ruleId b before actions).2 = .ok kept) :
    (performed p b actions).map (·.2) = actions ∧
      ∀ y ∈ performed p b actions, ∃ kept, (perform p y.1 y.2).2 = .ok kept := by
  induction actions generalizing b before with
  | nil => exact ⟨rfl, fun _ hy => absurd hy List.not_mem_nil⟩
  | cons a rest ih =>
    obtain ⟨b₁, backup, hpf⟩ := exists_perform_of_performAll h
    rw [performAll_cons_of_ok hpf] at h
    obtain ⟨hactions, hends⟩ := ih h
    rw [performed_cons_of_ok hpf]
    exact ⟨congrArg (a :: ·) hactions, List.forall_mem_cons.mpr ⟨⟨backup, by rw [hpf]⟩, hends⟩⟩

/-- An action that writes, and does not fail, has a path, and its content is among its changes. -/
theorem written_mem_changesOf {a : Action} {content : Text} {kept : Option Text}
    (hcontent : a.content = some content) (h : (perform p b a).2 = .ok kept) :
    ∃ path, a.path = some path ∧
      Change.written (p.target path) (contentBytes content) ∈ changesOf p b a := by
  obtain ⟨path, b₁, before, hpath, hwrite, hchanges⟩ :=
    changesOf_of_perform (Prod.ext rfl h) hcontent
  exact ⟨path, hpath, hchanges ▸ List.mem_append_right before (written_mem_fileChanges hwrite)⟩

end

/-! ## The copies and the files of a run -/

section
variable {p : Plan} {s s' : Progress} {vs : List Verdict} {outs : List RepairOutcome}

/-- The places that the paths of the plans of a run lead to in the end, once each. -/
def plannedFiles (p : Plan) (s : Progress) (vs : List Verdict) : List Location :=
  (((carriedIn p s vs).flatMap fun x => targets x.actions).filterMap fun target =>
    target.bind fun q => (repairAll p s vs).1.bench.tree.landing (p.target q)).eraseDups

/-- The copies that a run has made. -/
def copiedFiles (p : Plan) (s : Progress) (vs : List Verdict) : List Location :=
  ((journal p s vs).filterMap (·.copiedAt? (repairAll p s vs).1.bench.tree)).eraseDups

theorem countP_journal : (journal p s vs).countP Change.isCopy =
    ((carriedIn p s vs).map (·.copies p)).sum := by
  rw [journal_eq, List.countP_flatMap]
  rfl

theorem mem_plannedFiles {k : Location} : k ∈ plannedFiles p s vs ↔
    ∃ x ∈ carriedIn p s vs, ∃ q, some q ∈ targets x.actions ∧
      (repairAll p s vs).1.bench.tree.landing (p.target q) = some k := by
  rw [plannedFiles, List.mem_eraseDups, List.mem_filterMap]
  constructor
  · rintro ⟨target, hmem, hland⟩
    obtain ⟨x, hx, ht⟩ := List.mem_flatMap.mp hmem
    obtain ⟨q, rfl, hland⟩ := Option.bind_eq_some_iff.mp hland
    exact ⟨x, hx, q, ht, hland⟩
  · rintro ⟨x, hx, q, ht, hland⟩
    exact ⟨some q, List.mem_flatMap.mpr ⟨x, hx, ht⟩, hland⟩

theorem exists_target_of_written {k : Location} (h : k ∈ writtenFiles p s vs) :
    ∃ x ∈ carriedIn p s vs, ∃ path, some path ∈ targets x.actions ∧
      (repairAll p s vs).1.bench.tree.landing (p.target path) = some k := by
  obtain ⟨y, hy, path, hpath, hcontent, hland⟩ := exists_performed_of_written h
  obtain ⟨x, hx, hy⟩ := mem_performedIn_iff.mp hy
  exact ⟨x, hx, path, mem_targets_iff.mpr ⟨y.2, mem_performed hy, hpath, hcontent⟩, hland⟩

section
variable (hd : p.options.dryRun = false) (h : repairAll p s vs = (s', .ok outs))
  (hout : ∀ out ∈ outs, out.status ≠ .failed)

include hd h hout

/-- The successes with a copy are the plans that have made one. -/
theorem backups_eq :
    outs.countP (·.backupPath.isSome) = (carriedIn p s vs).countP (0 < ·.copies p) := by
  obtain ⟨hends, hsuccesses, hothers⟩ := successes_eq hd h hout
  have hfilter : outs.countP (·.backupPath.isSome) =
      (outs.filter (·.status == .success)).countP (·.backupPath.isSome) := by
    rw [List.countP_filter]
    refine List.countP_congr fun out hmem => ?_
    by_cases hstatus : out.status = .success
    · simp [hstatus]
    · simp [hothers out hmem hstatus]
  rw [hfilter, hsuccesses, List.countP_map]
  refine List.countP_congr fun x hx => ?_
  exact (Carried.isSome_kept (hends x hx)).trans decide_eq_true_iff.symm

theorem filePaths_eq : (outs.filter (·.status == .success)).filterMap (·.filePath) =
    (carriedIn p s vs).filterMap (·.main) := by
  rw [(successes_eq hd h hout).2.1, List.filterMap_map]
  rfl

theorem written_of_target (hp : p.Rooted) (hs : Sound s.bench.tree) {x : Carried}
    (hx : x ∈ carriedIn p s vs) {target : Option Text} (ht : target ∈ targets x.actions) :
    ∃ path k, target = some path ∧
      (repairAll p s vs).1.bench.tree.landing (p.target path) = some k ∧
      k ∈ writtenFiles p s vs := by
  obtain ⟨hactions, hends⟩ := performed_of_ok ((successes_eq hd h hout).1 x hx)
  obtain ⟨a, ha, rfl, hcontent⟩ := mem_targets_iff.mp ht
  obtain ⟨content, hcontent⟩ := Option.isSome_iff_exists.mp hcontent
  obtain ⟨y, hy, rfl⟩ := List.mem_map.mp (hactions.symm ▸ ha)
  obtain ⟨kept, hkept⟩ := hends y hy
  obtain ⟨path, hpath, hmem⟩ := written_mem_changesOf hcontent hkept
  have hchange : Change.written (p.target path) (contentBytes content) ∈ journal p s vs := by
    rw [journal_eq]
    exact List.mem_flatMap.mpr ⟨x, hx, List.mem_flatMap.mpr ⟨y, hy, hmem⟩⟩
  have hlanded := (account_repairAll hp hs vs).landed _ hchange _ rfl
  obtain ⟨k, hk⟩ := Option.isSome_iff_exists.mp hlanded
  refine ⟨path, k, hpath, hk, ?_⟩
  rw [writtenFiles, List.mem_eraseDups]
  exact List.mem_filterMap.mpr ⟨_, hchange, Change.writtenAt?_eq_some.mpr ⟨_, _, rfl, hk⟩⟩

/-- **What is written is what the paths of the plans lead to.** -/
theorem perm_plannedFiles (hp : p.Rooted) (hs : Sound s.bench.tree) :
    (writtenFiles p s vs).Perm (plannedFiles p s vs) := by
  have hwritten : (writtenFiles p s vs).Nodup := nodup_eraseDups _
  have hplanned : (plannedFiles p s vs).Nodup := nodup_eraseDups _
  refine (List.perm_ext_iff_of_nodup hwritten hplanned).mpr fun k => ?_
  rw [mem_plannedFiles]
  constructor
  · exact exists_target_of_written
  · rintro ⟨x, hx, q, ht, hland⟩
    obtain ⟨q', k', he, hland', hk⟩ := written_of_target hd h hout hp hs hx ht
    cases he
    obtain rfl := Option.some.inj (hland.symm.trans hland')
    exact hk

end

/-- The paths that the plans of a run are about, one for each plan, once each. -/
def mainPaths (p : Plan) (s : Progress) (vs : List Verdict) : List Text :=
  (((carriedIn p s vs).filterMap (·.main)).filter (· ≠ [])).eraseDups

section
variable (p : Plan) (s : Progress) (vs : List Verdict)

/-- The paths that plans are about and that stand for no file: they lead to none that a plan writes, as
that of a plan which writes nothing may, or to one that another path stands for. -/
def idlePaths : List Text :=
  surplus (fun q => (repairAll p s vs).1.bench.tree.landing (p.target q)) (plannedFiles p s vs)
    (mainPaths p s vs)

/-- The files that plans write and that no plan is about. -/
def sideFiles : List Location :=
  uncounted (fun q => (repairAll p s vs).1.bench.tree.landing (p.target q)) (plannedFiles p s vs)
    (mainPaths p s vs)

theorem length_idlePaths : (idlePaths p s vs).length + (plannedFiles p s vs).length =
    (mainPaths p s vs).length + (sideFiles p s vs).length :=
  length_surplus _ (nodup_eraseDups _) _

end

/-- The count of files is right where each plan writes one and different paths lead to different
ones. -/
theorem length_of_single (hd : p.options.dryRun = false) (h : repairAll p s vs = (s', .ok outs))
    (hout : ∀ out ∈ outs, out.status ≠ .failed) (hp : p.Rooted) (hs : Sound s.bench.tree)
    (hsingle : ∀ x ∈ carriedIn p s vs, ∃ q, q ≠ [] ∧ targets x.actions = [some q])
    (hapart : ∀ q ∈ mainPaths p s vs, ∀ q' ∈ mainPaths p s vs,
      (repairAll p s vs).1.bench.tree.landing (p.target q) =
        (repairAll p s vs).1.bench.tree.landing (p.target q') → q = q') :
    (mainPaths p s vs).length = (writtenFiles p s vs).length := by
  have hmem : ∀ {q}, q ∈ mainPaths p s vs ↔
      ∃ x ∈ carriedIn p s vs, targets x.actions = [some q] := by
    intro q
    rw [mainPaths, List.mem_eraseDups, List.mem_filter, List.mem_filterMap]
    constructor
    · rintro ⟨⟨x, hx, hmain⟩, -⟩
      obtain ⟨q', -, htargets⟩ := hsingle x hx
      rw [Carried.main, htargets] at hmain
      exact ⟨x, hx, by rw [htargets, ← hmain]; rfl⟩
    · rintro ⟨x, hx, htargets⟩
      obtain ⟨q', hne, htargets'⟩ := hsingle x hx
      cases htargets.symm.trans htargets'
      exact ⟨⟨x, hx, by rw [Carried.main, htargets]; rfl⟩, by simpa using hne⟩
  have hperm : ((mainPaths p s vs).map fun q =>
      (repairAll p s vs).1.bench.tree.landing (p.target q)).Perm
      ((plannedFiles p s vs).map some) := by
    refine (List.perm_ext_iff_of_nodup ?_ ?_).mpr fun found => ?_
    · exact (nodup_eraseDups _).map_on hapart
    · exact (nodup_eraseDups _).map fun _ _ => Option.some.inj
    · rw [List.mem_map, List.mem_map]
      constructor
      · rintro ⟨q, hq, rfl⟩
        obtain ⟨x, hx, htargets⟩ := hmem.mp hq
        have hin : some q ∈ targets x.actions := htargets ▸ List.mem_singleton_self (some q)
        obtain ⟨_, k, he, hland, -⟩ := written_of_target hd h hout hp hs hx hin
        cases he
        exact ⟨k, mem_plannedFiles.mpr ⟨x, hx, q, hin, hland⟩, hland.symm⟩
      · rintro ⟨k, hk, rfl⟩
        obtain ⟨x, hx, q, hq, hland⟩ := mem_plannedFiles.mp hk
        obtain ⟨q', -, htargets⟩ := hsingle x hx
        rw [htargets, List.mem_singleton, Option.some.injEq] at hq
        exact ⟨q, hmem.mpr ⟨x, hx, hq ▸ htargets⟩, hland⟩
  rw [(perm_plannedFiles hd h hout hp hs).length_eq]
  simpa using hperm.length_eq

/-! ## While stamps are ahead -/

/-- Stamps are ahead of all names: no entry of the tree has the name of a backup with a stamp that is
still to come, no link leads through one, and neither do the paths of a run. -/
structure StampsAhead (p : Plan) (b : Bench) : Prop where
  free : ∀ n, b.clock ≤ n → Free b.tree n
  links : ∀ n, b.clock ≤ n → UnstampedLinks b.tree n
  backups : ∀ n, b.clock ≤ n → Unstamped n p.backupFolder
  targets : ∀ id remedy, p.remedies.find? id = some remedy → ∀ site v actions,
    remedy site v = .ok actions → ∀ a ∈ actions, ∀ path ∈ a.path, ∀ n, b.clock ≤ n →
      Unstamped n (p.target path)

/-- A bench of a run that has begun with the first one, with its stamps still ahead. -/
structure StillAhead (b₀ b : Bench) : Prop where
  sound : Sound b.tree
  clock : b₀.clock ≤ b.clock
  grows : Grows b₀.tree b.tree
  free : ∀ n, b.clock ≤ n → Free b.tree n

section
variable (hp : p.Rooted) (hs : Sound s.bench.tree) (h : StampsAhead p s.bench)

include h in
theorem StampsAhead.unstamped {y : Bench × Action} (hy : y ∈ performedIn p s vs) :
    ∀ path ∈ y.2.path, ∀ n, s.bench.clock ≤ n → Unstamped n (p.target path) := by
  obtain ⟨_, v, actions, -, hplan, hmem⟩ := mem_performedIn hy
  obtain ⟨remedy, hfind, hok, -, -⟩ := of_planned hplan
  exact h.targets v.ruleId remedy hfind _ v actions hok y.2 hmem

include hp h in
theorem StillAhead.perform {y : Bench × Action} (hy : y ∈ performedIn p s vs)
    (hb : StillAhead s.bench y.1) : StillAhead s.bench (Repair.perform p y.1 y.2).1 := by
  have hacc := account_perform hp hb.sound y.2
  have hclock := clock_perform p y.1 y.2
  refine ⟨hacc.sound, Nat.le_trans hb.clock hclock, hb.grows.trans hacc.grows, fun n hn => ?_⟩
  have hn₀ : s.bench.clock ≤ n := Nat.le_trans hb.clock (Nat.le_trans hclock hn)
  exact free_perform hp hb.sound ((h.links _ hb.clock).grows hb.grows) (hb.free _ (Nat.le_refl _))
    (h.backups _ hb.clock) (h.backups n hn₀) (fun path hpath => h.unstamped hy path hpath n hn₀)
    ((h.links n hn₀).grows hb.grows) (hb.free n (Nat.le_trans hclock hn)) hn

include hp hs h in
/-- Stamps stay ahead all along a run. -/
theorem stillAhead_performedIn : ∀ y ∈ performedIn p s vs, StillAhead s.bench y.1 :=
  performedIn_induct ⟨hs, Nat.le_refl _, Grows.refl _, h.free⟩ fun _ hy hb => hb.perform hp h hy

theorem file_of_copied (hp : p.Rooted) {b : Bench} (hs : Sound b.tree)
    (hl : UnstampedLinks b.tree b.clock) (hfree : Free b.tree b.clock)
    (hu : Unstamped b.clock p.backupFolder) {a : Action}
    (hua : ∀ path ∈ a.path, Unstamped b.clock (p.target path)) {c : Change}
    (hc : c ∈ changesOf p b a) {x : Path × List UInt8} (hx : x ∈ c.file?) {folder : Location}
    {path : Text} (hland : (perform p b a).1.tree.landing x.1 =
      some (folder ++ [Name.plain (backupName path b.clock)])) :
    ∃ bytes, (perform p b a).1.tree.get? (folder ++ [Name.plain (backupName path b.clock)]) =
      some (.file bytes) := by
  have hacc := account_perform hp hs a
  rcases hacc.entry (folder ++ [Name.plain (backupName path b.clock)]) with
    hentry | ⟨-, -, c', hc', d, rfl, way, hway, hloc⟩
  · rcases Tree.exists_lastAt (t := (perform p b a).1.tree)
      (folder ++ [Name.plain (backupName path b.clock)]) (changesOf p b a) with ⟨last, hlast⟩ | hno
    · obtain ⟨y, hy, -⟩ := hlast.exists_file
      exact ⟨y.2, hentry.trans (hlast.replay_eq hy _)⟩
    · exact absurd hland (hno c hc x hx)
  · -- a directory on the way of the action has no stamp
    obtain ⟨q, hq, ⟨hd⟩⟩ := freeEffect_of_mem_changesOf hp hs hl hfree hu hc'
    have hunstamped : Unstamped b.clock d ∧ d.isAbsolute = true := by
      rcases hd with rfl | rfl | rfl
      · exact ⟨hua q hq, (hp.target q).2⟩
      · exact ⟨(hua q hq).parent, (hp.target q).2⟩
      · exact ⟨hu, hp.backupsAbsolute⟩
    have hup : Unstamped b.clock ⟨d.anchor, way⟩ :=
      fun name hname => hunstamped.1 name (hway.subset hname)
    exact absurd rfl (hup.locate_ne (hl.grows hacc.grows) hunstamped.2 hloc folder path)

include hp hs h in
/-- **A copy is a new file in the backup directory**, under a name with the stamp of its moment. -/
theorem created_of_copied {y : Bench × Action} (hy : y ∈ performedIn p s vs) {q : Path}
    {bytes : List UInt8} (hc : Change.copied q bytes ∈ changesOf p y.1 y.2) :
    ∃ folder path, (repairAll p s vs).1.bench.tree.status p.backupFolder = .ok (folder, .folder) ∧
      (repairAll p s vs).1.bench.tree.landing q =
        some (folder ++ [Name.plain (backupName path y.1.clock)]) ∧
      s.bench.tree.get? (folder ++ [Name.plain (backupName path y.1.clock)]) = none ∧
      ∃ bytes, (repairAll p s vs).1.bench.tree.get?
        (folder ++ [Name.plain (backupName path y.1.clock)]) = some (.file bytes) := by
  have hb := stillAhead_performedIn hp hs h y hy
  have hacc := account_perform hp hb.sound y.2
  have hlinks := (h.links _ hb.clock).grows hb.grows
  have hfree := hb.free _ (Nat.le_refl _)
  obtain ⟨-, -, -, hg⟩ := grows_of_performedIn hp hs hy
  obtain ⟨path, hpath, ⟨⟩⟩ :=
    freeEffect_of_mem_changesOf hp hb.sound hlinks hfree (h.backups _ hb.clock) hc
  obtain ⟨-, _, -, ⟨folder, hfolder⟩, -⟩ := of_copied hp hb.sound hc
  obtain ⟨k, hk⟩ := Option.isSome_iff_exists.mp (hacc.landed _ hc _ rfl)
  have hnolink : ∀ target, (Repair.perform p y.1 y.2).1.tree.get?
      (folder ++ [Name.plain (backupName path y.1.clock)]) ≠ some (.link target) := fun target =>
    hacc.grows.no_link_of_none (hfree folder path) target
  obtain rfl := locate_backupPath hfolder hnolink (Tree.landing_eq_some.mp hk)
  refine ⟨folder, path, Tree.status_folder_grows hg hfolder,
    Tree.landing_eq_some.mpr (Tree.locate_grows hg (Tree.landing_eq_some.mp hk)),
    h.free _ hb.clock folder path, ?_⟩
  obtain ⟨bytes', hbytes'⟩ := file_of_copied hp hb.sound hlinks hfree (h.backups _ hb.clock)
    (fun path hpath => h.unstamped hy path hpath _ hb.clock) hc rfl hk
  exact hg.file hbytes'

include hp hs h in
/-- Copies are files of their own. -/
theorem nodup_copiedAt :
    ((journal p s vs).filterMap (·.copiedAt? (repairAll p s vs).1.bench.tree)).Nodup := by
  have hstamp : ∀ y ∈ performedIn p s vs, ∀ k ∈ (changesOf p y.1 y.2).filterMap
      (·.copiedAt? (repairAll p s vs).1.bench.tree), ∃ folder path,
        k = folder ++ [Name.plain (backupName path y.1.clock)] ∧
        y.1.clock < (Repair.perform p y.1 y.2).1.clock := by
    intro y hy k hk
    obtain ⟨c, hc, hk⟩ := List.mem_filterMap.mp hk
    obtain ⟨q, bytes, rfl, hland⟩ := Change.copiedAt?_eq_some.mp hk
    obtain ⟨folder, path, -, hat, -⟩ := created_of_copied hp hs h hy hc
    have hsound := (stillAhead_performedIn hp hs h y hy).sound
    exact ⟨folder, path, Option.some.inj (hland.symm.trans hat), (of_copied hp hsound hc).1⟩
  have hnext : (performedIn p s vs).Pairwise fun x y => (perform p x.1 x.2).1.clock ≤ y.1.clock :=
    performedIn_pairwise (R := fun b b' => b.clock ≤ b'.clock) (fun _ => Nat.le_refl _) Nat.le_trans
      (clock_perform p)
  rw [journal, List.filterMap_flatMap, List.nodup_flatMap]
  refine ⟨fun y hy => ?_, (List.Pairwise.and_mem.mp hnext).imp ?_⟩
  · -- an action copies once at most
    have hlength : ((changesOf p y.1 y.2).filterMap
        (·.copiedAt? (repairAll p s vs).1.bench.tree)).length ≤ 1 := by
      have hcopies := (countP_changesOf (p := p) (b := y.1) (a := y.2)).1
      have hone : (targets [y.2]).length ≤ 1 :=
        (List.length_map _).trans_le (List.length_filter_le _ _)
      refine Nat.le_trans ?_ (Nat.le_trans hcopies hone)
      rw [List.length_filterMap_eq_countP]
      refine List.countP_mono_left fun c _ hc => ?_
      obtain ⟨k, hk⟩ := Option.isSome_iff_exists.mp hc
      obtain ⟨q, bytes, rfl, -⟩ := Change.copiedAt?_eq_some.mp hk
      rfl
    rcases Nat.le_one_iff_eq_zero_or_eq_one.mp hlength with hnone | hsingle
    · exact List.eq_nil_of_length_eq_zero hnone ▸ List.nodup_nil
    · obtain ⟨k, hk⟩ := List.length_eq_one_iff.mp hsingle
      exact hk ▸ List.nodup_singleton k
  · rintro y z ⟨hy, hz, hle⟩ k hk hk'
    obtain ⟨folder, path, rfl, hmoved⟩ := hstamp y hy k hk
    obtain ⟨folder', path', he, -⟩ := hstamp z hz _ hk'
    have hclock := stamp_eq_of_plain_eq (List.cons.inj (List.append_inj_right' he rfl)).1
    omega

include hp hs h in
theorem length_copiedFiles :
    (copiedFiles p s vs).length = ((carriedIn p s vs).map (·.copies p)).sum := by
  rw [copiedFiles, eraseDups_of_nodup (nodup_copiedAt hp hs h), List.length_filterMap_eq_countP,
    ← countP_journal]
  refine List.countP_congr fun c hc => ?_
  have hlanded := (account_repairAll hp hs vs).landed c hc
  cases c with
  | made q => exact Iff.rfl
  | written q bytes => exact Iff.rfl
  | copied q bytes => exact iff_of_true (hlanded (q, bytes) rfl) rfl

end

/-! ## The counters -/

/-- When the counters of the summary of a run are right: the count of its files if and only if the plans
that are carried out have as many idle paths as side files, and the count of its backups, while stamps
are ahead, if and only if no plan makes two. -/
structure Counters (p : Plan) (b : Bench) (vs : List Verdict) (summary : RepairSummary) : Prop where
  /-- One path is counted for each plan. -/
  counted : summary.modifiedFiles = mainPaths p ⟨b, []⟩ vs
  /-- All the files of a plan are written. -/
  written : (writtenFiles p ⟨b, []⟩ vs).Perm (plannedFiles p ⟨b, []⟩ vs)
  files : summary.modifiedFiles.length = (writtenFiles p ⟨b, []⟩ vs).length ↔
    (idlePaths p ⟨b, []⟩ vs).length = (sideFiles p ⟨b, []⟩ vs).length
  /-- That is so where each plan writes one file and different paths lead to different ones. -/
  single : (∀ x ∈ carriedIn p ⟨b, []⟩ vs, ∃ q, q ≠ [] ∧ targets x.actions = [some q]) →
    (∀ q ∈ summary.modifiedFiles, ∀ q' ∈ summary.modifiedFiles,
      (repairAll p ⟨b, []⟩ vs).1.bench.tree.landing (p.target q) =
        (repairAll p ⟨b, []⟩ vs).1.bench.tree.landing (p.target q') → q = q') →
    summary.modifiedFiles.length = (writtenFiles p ⟨b, []⟩ vs).length
  /-- A backup is a new file in the backup directory. -/
  created : StampsAhead p b → ∀ k ∈ copiedFiles p ⟨b, []⟩ vs, b.tree.get? k = none ∧
    ∃ folder name bytes, k = folder ++ [name] ∧
      (repairAll p ⟨b, []⟩ vs).1.bench.tree.status p.backupFolder = .ok (folder, .folder) ∧
      (repairAll p ⟨b, []⟩ vs).1.bench.tree.get? k = some (.file bytes)
  backups : StampsAhead p b → (summary.backups = (copiedFiles p ⟨b, []⟩ vs).length ↔
    ∀ x ∈ carriedIn p ⟨b, []⟩ vs, x.copies p ≤ 1)

/-- **When the counters of a summary are right**, for every tree, whatever links are in it, all
catalogs, remedies and violations and all options of a run that writes and in which nothing fails. -/
theorem counters_iff {cat : Catalog} {rs : Remedies} {st : Settings} {b : Bench} {path : Text}
    {vs : List Verdict} {o : RepairOptions} {root : Path} (hs : Sound b.tree)
    (hroot : b.tree.resolve (.ofText path) = .ok root)
    (hdir : (o.backupDirectory.getD st.backupDirectory).Proper) (hd : o.dryRun = false)
    {summary : RepairSummary} (hok : (repair cat rs st b path vs o).2 = .ok summary)
    (hout : ∀ out ∈ summary.outcomes, out.status ≠ .failed) :
    Counters ⟨cat, rs, st, root, o⟩ b vs summary := by
  obtain ⟨habs, hsteps⟩ := Tree.resolve_steps hs hroot
  have hrooted : ∀ name ∈ root.parts, Path.IsPart name := fun name hn => (hsteps name hn).1
  have hp : Plan.Rooted ⟨cat, rs, st, root, o⟩ := ⟨hrooted, habs, Path.Proper.join hrooted hdir⟩
  obtain ⟨s', hall, -, -, -⟩ := of_repair hroot hok
  have hmodified : summary.modifiedFiles = mainPaths ⟨cat, rs, st, root, o⟩ ⟨b, []⟩ vs := by
    rw [mainPaths, ← filePaths_eq hd hall hout]
    rfl
  have hwritten := perm_plannedFiles hd hall hout hp hs
  refine ⟨hmodified, hwritten, ?_, fun hsingle hapart => ?_, fun h k hk => ?_, fun h => ?_⟩
  · have hcount := length_idlePaths ⟨cat, rs, st, root, o⟩ ⟨b, []⟩ vs
    rw [hmodified, hwritten.length_eq]
    omega
  · rw [hmodified] at hapart ⊢
    exact length_of_single hd hall hout hp hs hsingle hapart
  · rw [copiedFiles, List.mem_eraseDups] at hk
    obtain ⟨c, hc, hk⟩ := List.mem_filterMap.mp hk
    obtain ⟨q, bytes, rfl, hland⟩ := Change.copiedAt?_eq_some.mp hk
    obtain ⟨y, hy, hc⟩ := List.mem_flatMap.mp hc
    obtain ⟨folder, source, hfolder, hat, hnone, bytes', hfile⟩ := created_of_copied hp hs h hy hc
    obtain rfl := Option.some.inj (hland.symm.trans hat)
    exact ⟨hnone, folder, _, bytes', rfl, hfolder, hfile⟩
  · rw [length_copiedFiles hp hs h, RepairSummary.backups, backups_eq hd hall hout]
    exact countP_pos_eq_sum_iff _ _

/-! ### A repair of two files -/

namespace TwoFiles

def bench : Bench :=
  ⟨⟨[(["pkg"], .folder), (["pkg", "a"], .file [49]), (["pkg", "b"], .file [50])], []⟩, 7⟩

/-- A remedy that writes over both. -/
def remedies : Remedies :=
  [("R", fun _ _ => .ok [⟨some "a", "Wrote a", some "new"⟩, ⟨some "b", "Wrote b", some "new"⟩])]

def plan : Plan :=
  ⟨.empty, remedies, .default, ⟨.root, ["pkg"]⟩,
    ⟨false, true, none, none, false, [], [], none⟩⟩

def summary : RepairSummary :=
  ⟨"/pkg", false, 1, [⟨"R", .success, .medium, some "a", ["Wrote a", "Wrote b"],
    some "/pkg/.modcomply-backup/a.00000000T000000000007.backup", none⟩]⟩

theorem repair_eq : (repair plan.catalog plan.remedies plan.settings bench "/pkg"
    [Sample.violation "R"] plan.options).2 = .ok summary := by
  exact eq_ok_of_toOption (by decide +kernel)

theorem stampsAhead : StampsAhead plan bench where
  free n _ := free_of_not_suffix (by decide) n
  links n _ := (Tree.noLinks_of_entries (by simp [bench])).unstamped n
  backups n _ := unstamped_of_not_suffix (by decide) n
  targets id remedy hfind site v actions hplan a ha path hpath n _ := by
    obtain ⟨-, rfl⟩ := Prod.mk.inj (List.mem_singleton.mp (mem_of_find? hfind))
    obtain rfl := Except.ok.inj hplan
    rcases List.mem_pair.mp ha with rfl | rfl
    · cases hpath
      exact unstamped_of_not_suffix (by decide) n
    · cases hpath
      exact unstamped_of_not_suffix (by decide) n

end TwoFiles

/-- One repair writes over two files: one of them is counted, and one of the two backups. -/
theorem counters_iff_two_files :
    Counters TwoFiles.plan TwoFiles.bench [Sample.violation "R"] TwoFiles.summary ∧
      idlePaths TwoFiles.plan ⟨TwoFiles.bench, []⟩ [Sample.violation "R"] = [] ∧
      sideFiles TwoFiles.plan ⟨TwoFiles.bench, []⟩ [Sample.violation "R"] =
        [(["pkg", "b"] : Location)] ∧
      TwoFiles.summary.modifiedFiles.length = 1 ∧ TwoFiles.summary.backups = 1 ∧
      (writtenFiles TwoFiles.plan ⟨TwoFiles.bench, []⟩ [Sample.violation "R"]).length = 2 ∧
      (copiedFiles TwoFiles.plan ⟨TwoFiles.bench, []⟩ [Sample.violation "R"]).length ≠ 1 := by
  have hcounters : Counters TwoFiles.plan TwoFiles.bench [Sample.violation "R"] TwoFiles.summary :=
    counters_iff (Tree.sound_of_entries rfl (by decide) (by decide)) rfl (by decide) rfl
      TwoFiles.repair_eq (by decide)
  have htwo : ¬ ∀ x ∈ carriedIn TwoFiles.plan ⟨TwoFiles.bench, []⟩ [Sample.violation "R"],
      x.copies TwoFiles.plan ≤ 1 := by
    decide +kernel
  refine ⟨hcounters, by decide +kernel, by decide +kernel, by decide +kernel, by decide +kernel,
    by decide +kernel, fun hone => ?_⟩
  exact htwo ((hcounters.backups TwoFiles.stampsAhead).mp hone.symm)

end

end Repair

end PackageAudit
