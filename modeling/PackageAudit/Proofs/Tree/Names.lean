import PackageAudit.Proofs.Tree.Shape

/-! # The names in a directory

`Tree.names` lists what lies directly in a directory (`mem_names`), each name once if nothing is in
the tree twice (`nodup_names`).
-/

namespace PackageAudit.Tree

theorem nameIn?_eq_some {folder l : Location} {name : Text} :
    nameIn? folder l = some name ↔ l = folder ++ [name] := by
  unfold nameIn?
  constructor
  · intro h
    split at h
    · next hp =>
      obtain ⟨rest, rfl⟩ := List.isPrefixOf_iff_prefix.mp hp
      rw [List.drop_left] at h
      split at h
      · cases h
        rfl
      · cases h
    · cases h
  · rintro rfl
    rw [if_pos (List.isPrefixOf_iff_prefix.mpr (List.prefix_append folder [name])),
      List.drop_left]

section
variable {t : Tree}

theorem get?_ne_none_of_mem {l : Location} {e : Entry} (h : (l, e) ∈ t.entries) :
    t.get? l ≠ none := by
  unfold get?
  split
  · exact nofun
  · rw [Ne, Option.map_eq_none_iff, List.find?_eq_none]
    exact fun hall => hall (l, e) h (by simp)

theorem names_of_ordered {folder : Location} {names : List Text}
    (h : t.entries.filterMap (fun x => nameIn? folder x.1) = names)
    (ho : names.Pairwise fun a b => (!Text.before b a) = true) : t.names folder = names := by
  rw [Tree.names, h]
  exact List.mergeSort_of_pairwise ho

theorem mem_names {folder : Location} {name : Text} :
    name ∈ t.names folder ↔ t.get? (folder ++ [name]) ≠ none := by
  unfold names
  rw [List.mem_mergeSort, List.mem_filterMap]
  constructor
  · rintro ⟨⟨l, e⟩, hm, hn⟩
    obtain rfl := nameIn?_eq_some.mp hn
    exact get?_ne_none_of_mem hm
  · intro h
    obtain ⟨e, he⟩ := Option.ne_none_iff_exists'.mp h
    exact ⟨_, mem_entries_of_get? (by simp) he, nameIn?_eq_some.mpr rfl⟩

theorem nodup_names (h : (t.entries.map (·.1)).Nodup) (folder : Location) :
    (t.names folder).Nodup := by
  unfold names
  rw [(List.mergeSort_perm _ _).nodup_iff]
  refine List.Pairwise.filterMap _ ?_ (List.pairwise_map.mp h)
  intro x y hne a ha b hb hab
  rw [nameIn?_eq_some.mp ha, nameIn?_eq_some.mp hb, hab] at hne
  exact hne rfl

theorem pairwise_names (h : (t.entries.map (·.1)).Nodup) (folder : Location) :
    (t.names folder).Pairwise fun a b => Text.before a b = true := by
  have hnodup := nodup_names h folder
  unfold names at *
  refine Text.ordered.pairwise_before id ?_
  rw [List.map_id]
  exact (List.mergeSort_perm _ _).nodup_iff.mp hnodup

end

end PackageAudit.Tree
