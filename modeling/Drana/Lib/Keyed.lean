/-
Lists in which an entry is found by a key: an entry replaces that with its key, or
comes at the end.
-/
import Mathlib.Data.List.Nodup

namespace Drana

variable {α β : Type} [DecidableEq β] {key : α → β} {l : List α} {a x : α}

/-- The entry with this key is replaced, or a new one put at the end. -/
def upsertBy (key : α → β) (l : List α) (a : α) : List α :=
  match l.findIdx? (key · = key a) with
  | some idx => l.set idx a
  | none => l ++ [a]

theorem map_upsertBy : (upsertBy key l a).map key = if key a ∈ l.map key then l.map key else l.map key ++ [key a] := by
  unfold upsertBy
  cases hidx : l.findIdx? (key · = key a) with
  | none =>
    have hnone : key a ∉ l.map key := by
      intro hmem
      obtain ⟨x, hx, hkey⟩ := List.mem_map.mp hmem
      have hall := List.findIdx?_eq_none_iff.mp hidx x hx
      simp [hkey] at hall
    rw [if_neg hnone, List.map_append, List.map_singleton]
  | some idx =>
    obtain ⟨hlt, hkey, -⟩ := List.findIdx?_eq_some_iff_getElem.mp hidx
    have hat : key l[idx] = key a := by simpa using hkey
    have hmem : key a ∈ l.map key := hat ▸ List.mem_map_of_mem (List.getElem_mem hlt)
    rw [if_pos hmem]
    show (l.set idx a).map key = _
    rw [List.map_set, ← hat]
    have hlt' : idx < (l.map key).length := by rwa [List.length_map]
    have hself : (l.map key).set idx (l.map key)[idx] = l.map key := List.set_getElem_self hlt'
    rwa [List.getElem_map] at hself

theorem mem_upsertBy (h : x ∈ upsertBy key l a) : x = a ∨ x ∈ l := by
  unfold upsertBy at h
  split at h
  · exact (List.mem_or_eq_of_mem_set h).symm
  · exact (List.mem_append.mp h).symm.imp_left List.mem_singleton.mp

theorem mem_upsertBy_self : a ∈ upsertBy key l a := by
  unfold upsertBy
  split
  · next idx hidx =>
    obtain ⟨hlt, -, -⟩ := List.findIdx?_eq_some_iff_getElem.mp hidx
    exact List.mem_set hlt a
  · exact List.mem_append_right _ (List.mem_singleton_self a)

theorem nodup_upsertBy (h : (l.map key).Nodup) : ((upsertBy key l a).map key).Nodup := by
  rw [map_upsertBy]
  split
  · exact h
  · next hnew => exact List.nodup_append.mpr ⟨h, List.nodup_singleton _, fun x hx y hy hxy =>
      hnew (List.mem_singleton.mp hy ▸ hxy ▸ hx)⟩

end Drana
