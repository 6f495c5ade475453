import SqlPipeline.Proofs.Narrowing

/-!
# Renaming all at once

A renaming looks at the old names only, so that its entries do not see each other: two
names can be swapped, and any number of names can go round in a circle. What makes this
safe is checked in three places, the old names, the new names and the columns that come
out, and none of these lists may repeat a name. `RenameChecks` is that record.

Everything here follows from one fact: on the columns of its source a renaming never
gives two columns the same name. So it can be undone by the same entries the other way
round, and it can be cut down to fewer columns and still gives each of them the name it
had among all.
-/

namespace SqlPipeline

/-- The entry that takes the new name back to the old one. -/
def Rename.reversed (r : Rename) : Rename := ⟨r.old, r.new⟩

/-- `after` has the columns of `before`, each renamed without regard to the others: a column that an
entry names has the entry's new name, and a column that no entry names is as it was. -/
structure RenamedEach (mapping : List Rename) (before after : List Text) : Prop where
  length : after.length = before.length
  entry : ∀ (i : Nat), ∀ r ∈ mapping, before[i]? = some r.old → after[i]? = some r.new
  other : ∀ (i : Nat) (name : Text), before[i]? = some name → (∀ r ∈ mapping, r.old ≠ name) →
    after[i]? = some name

variable {mapping : List Rename} {columns : List Text}

theorem map_old_reversed (mapping : List Rename) :
    (mapping.map Rename.reversed).map Rename.old = mapping.map Rename.new := by
  rw [List.map_map]
  rfl

theorem map_new_reversed (mapping : List Rename) :
    (mapping.map Rename.reversed).map Rename.new = mapping.map Rename.old := by
  rw [List.map_map]
  rfl

/-- The reversed entries look up the old name of a new one. -/
theorem renamed_reversed (mapping : List Rename) (name : Text) :
    renamed (mapping.map Rename.reversed) name = oldName mapping name := by
  have hfind : (mapping.map Rename.reversed).find? (fun r => r.old == name) =
      (mapping.find? fun r => r.new == name).map Rename.reversed := List.find?_map
  rw [renamed, oldName, hfind]
  cases mapping.find? fun r => r.new == name with
  | none => rfl
  | some r => rfl

theorem renamedEach_map (h : (mapping.map Rename.old).Nodup) (columns : List Text) :
    RenamedEach mapping columns (columns.map (renamed mapping)) where
  length := List.length_map _
  entry := by
    intro i r hr hi
    rw [List.getElem?_map, hi, Option.map_some, renamed_of_mem h hr]
  other := by
    intro i name hi hother
    have hnot : name ∉ mapping.map Rename.old := by
      intro hmem
      obtain ⟨r, hr, hold⟩ := List.mem_map.mp hmem
      exact hother r hr hold
    rw [List.getElem?_map, hi, Option.map_some, renamed_of_not_mem hnot]

namespace RenameChecks

/-- Each column of the source has one of the names that are checked. -/
theorem named_columns (h : RenameChecks columns mapping) : Named columns := by
  refine ⟨fun name hn => ?_, List.Nodup.of_map _ h.named.nodup⟩
  by_cases hold : name ∈ mapping.map Rename.old
  · exact h.olds.nonempty name hold
  · have hkept : renamed mapping name ∈ columns.map (renamed mapping) := List.mem_map_of_mem hn
    rw [renamed_of_not_mem hold] at hkept
    exact h.named.nonempty name hkept

theorem oldName_renamed (h : RenameChecks columns mapping) {name : Text} (hn : name ∈ columns) :
    oldName mapping (renamed mapping name) = name :=
  SqlPipeline.oldName_renamed h.known h.olds.nodup h.news.nodup h.named.nodup hn

/-- Renaming and renaming back gives the columns there were. -/
theorem map_renamed_reversed (h : RenameChecks columns mapping) :
    (columns.map (renamed mapping)).map (renamed (mapping.map Rename.reversed)) = columns := by
  have hback : ∀ name ∈ columns,
      (renamed (mapping.map Rename.reversed) ∘ renamed mapping) name = id name := by
    intro name hn
    rw [Function.comp_apply, renamed_reversed, h.oldName_renamed hn, id]
  calc (columns.map (renamed mapping)).map (renamed (mapping.map Rename.reversed))
      = columns.map (renamed (mapping.map Rename.reversed) ∘ renamed mapping) := List.map_map
    _ = columns.map id := List.map_congr_left hback
    _ = columns := List.map_id columns

/-- The reversed entries pass all checks on the columns that came out. -/
theorem reversed (h : RenameChecks columns mapping) :
    RenameChecks (columns.map (renamed mapping)) (mapping.map Rename.reversed) where
  known := by
    intro name hn
    rw [map_old_reversed] at hn
    obtain ⟨r, hr, rfl⟩ := List.mem_map.mp hn
    have hold : r.old ∈ columns := h.known r.old (List.mem_map_of_mem hr)
    rw [← renamed_of_mem h.olds.nodup hr]
    exact List.mem_map_of_mem hold
  olds := by
    rw [map_old_reversed]
    exact h.news
  news := by
    rw [map_new_reversed]
    exact h.olds
  named := by
    rw [h.map_renamed_reversed]
    exact h.named_columns

/-- A renaming that gives some columns the names of these same columns, in another order, passes all
checks: swaps and circles are of this kind. -/
theorem of_perm (hcolumns : Named columns) (hknown : ∀ name ∈ mapping.map Rename.old, name ∈ columns)
    (holds : (mapping.map Rename.old).Nodup)
    (hperm : (mapping.map Rename.new).Perm (mapping.map Rename.old)) :
    RenameChecks columns mapping := by
  have hnews : (mapping.map Rename.new).Nodup := hperm.nodup_iff.mpr holds
  have hnew : ∀ r ∈ mapping, r.new ∈ mapping.map Rename.old :=
    fun r hr => hperm.mem_iff.mp (List.mem_map_of_mem hr)
  -- a name goes to one of the old names exactly if it is one of them, so the two kinds do not meet
  have hin : ∀ name, renamed mapping name ∈ mapping.map Rename.old ↔ name ∈ mapping.map Rename.old := by
    intro name
    by_cases hold : name ∈ mapping.map Rename.old
    · obtain ⟨r, hr, rfl⟩ := List.mem_map.mp hold
      rw [renamed_of_mem holds hr]
      exact iff_of_true (hnew r hr) hold
    · rw [renamed_of_not_mem hold]
  have hinj : ∀ a ∈ columns, ∀ b ∈ columns, renamed mapping a = renamed mapping b → a = b := by
    intro a _ b _ he
    by_cases ha : a ∈ mapping.map Rename.old
    · have hb : b ∈ mapping.map Rename.old := (hin b).mp (he ▸ (hin a).mpr ha)
      obtain ⟨r, hr, rfl⟩ := List.mem_map.mp ha
      obtain ⟨s, hs, rfl⟩ := List.mem_map.mp hb
      rw [renamed_of_mem holds hr, renamed_of_mem holds hs] at he
      rw [List.inj_on_of_nodup_map hnews hr hs he]
    · have hb : b ∉ mapping.map Rename.old := fun hb => ha ((hin a).mp (he ▸ (hin b).mpr hb))
      rwa [renamed_of_not_mem ha, renamed_of_not_mem hb] at he
  refine ⟨hknown, hcolumns.of_subset hknown holds, ?_, ?_, hcolumns.nodup.map_on hinj⟩
  · exact hcolumns.of_subset (fun name hn => hknown name (hperm.mem_iff.mp hn)) hnews
  · intro name hn
    obtain ⟨old, hold, rfl⟩ := List.mem_map.mp hn
    by_cases hm : old ∈ mapping.map Rename.old
    · exact hcolumns.nonempty _ (hknown _ ((hin old).mpr hm))
    · rw [renamed_of_not_mem hm]
      exact hcolumns.nonempty old hold

end RenameChecks

namespace Pipeline

/--
**Renaming is simultaneous and can be undone.**

Every rearrangement of the names of some columns is accepted, whatever circles it is made of. Of every
renaming that is accepted the following holds. Each position of the result has the name that its own column
gets, without regard to the other columns. The reversed entries are accepted on the result and give the
columns of the source again. On a tree with some of the columns, in their order, the entries for these
columns are accepted, and each column gets the name that it has in the result.
-/
theorem renameColumns_simultaneous (source : Tree) (mapping : List Rename) :
    (Named source.schema → (∀ name ∈ mapping.map Rename.old, name ∈ source.schema) →
        (mapping.map Rename.old).Nodup →
        (mapping.map Rename.new).Perm (mapping.map Rename.old) →
          ∃ result, renameColumns source mapping = .ok result) ∧
      ∀ result, renameColumns source mapping = .ok result →
        RenamedEach mapping source.schema result.schema ∧
        (∃ back, renameColumns result (mapping.map Rename.reversed) = .ok back ∧
          back.schema = source.schema) ∧
        ∀ part : Tree, part.schema.Sublist source.schema →
          ∃ few, renameColumns part (mapping.filter fun r => part.schema.contains r.old) = .ok few ∧
            few.schema.Sublist result.schema ∧ few.schema.length = part.schema.length ∧
            ∀ (i j : Nat) (name : Text), part.schema[i]? = some name → source.schema[j]? = some name →
              few.schema[i]? = result.schema[j]? := by
  refine ⟨fun hcolumns hknown holds hperm => ?_, fun result h => ?_⟩
  · exact ⟨_, renameColumns_ok_iff.mpr ⟨.of_perm hcolumns hknown holds hperm, rfl⟩⟩
  · obtain ⟨hc, rfl⟩ := renameColumns_ok_iff.mp h
    replace hc : RenameChecks source.schema mapping := hc
    refine ⟨renamedEach_map hc.olds.nodup source.schema, ?_, ?_⟩
    · exact ⟨_, renameColumns_ok_iff.mpr ⟨hc.reversed, rfl⟩, hc.map_renamed_reversed⟩
    · intro part hpart
      have hfew : RenameChecks part.schema (mapping.filter fun r => part.schema.contains r.old) :=
        hc.narrow (fun name hn => hpart.subset hn) (hc.named_columns.nodup.sublist hpart)
      -- on the columns that are left the restricted mapping renames as the whole one does
      have hschema : (Tree.renameColumns part
          (mapping.filter fun r => part.schema.contains r.old)).schema =
          part.schema.map (renamed mapping) := map_renamed_filter part.schema mapping
      refine ⟨_, renameColumns_ok_iff.mpr ⟨hfew, rfl⟩, ?_, ?_, ?_⟩
      · rw [hschema]
        exact hpart.map (renamed mapping)
      · rw [hschema, List.length_map]
      · intro i j name hi hj
        have hj' : (source.schema.map (renamed mapping))[j]? = some (renamed mapping name) := by
          rw [List.getElem?_map, hj, Option.map_some]
        rw [hschema, List.getElem?_map, hi, Option.map_some]
        exact hj'.symm

/-- `t(a, b, c, d)`. -/
def lettered : Tree := .table ⟨[116], [[97], [98], [99], [100]], none⟩

/-- `u(b, d)`. -/
def letteredPart : Tree := .table ⟨[117], [[98], [100]], none⟩

/-- The names `a`, `b` and `c` go round: `a` becomes `b`, `b` becomes `c` and `c` becomes `a`. -/
def circle : List Rename := [⟨[98], [97]⟩, ⟨[99], [98]⟩, ⟨[97], [99]⟩]

/-- A circle of three names beside a column that stays, and the one entry of it that two columns need. -/
theorem renameColumns_simultaneous_circle :
    ∃ result, renameColumns lettered circle = .ok result ∧
      result.schema[2]? = some [97] ∧ result.schema[3]? = some [100] ∧
      (∃ back, renameColumns result (circle.map Rename.reversed) = .ok back ∧
        back.schema = lettered.schema) ∧
      ∃ few, renameColumns letteredPart [⟨[99], [98]⟩] = .ok few ∧
        few.schema.Sublist result.schema ∧ few.schema[0]? = result.schema[1]? := by
  obtain ⟨result, h⟩ := (renameColumns_simultaneous lettered circle).1 ⟨by decide, by decide⟩
    (by decide) (by decide) (by decide)
  obtain ⟨heach, hback, hpart⟩ := (renameColumns_simultaneous lettered circle).2 result h
  obtain ⟨few, hfew, hsub, -, hat⟩ := hpart letteredPart (by decide)
  exact ⟨result, h, heach.entry 2 ⟨[97], [99]⟩ (by decide) rfl,
    heach.other 3 [100] rfl (by decide), hback, few, hfew, hsub, hat 0 1 [98] rfl rfl⟩

end Pipeline

end SqlPipeline
