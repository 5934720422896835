import Mathlib.Data.List.Nodup
import Mathlib.Algebra.BigOperators.Group.List.Basic
import Mathlib.Algebra.GroupWithZero.Nat

set_option autoImplicit false

/-! # Directories of named files

What a filesystem without subdirectories keeps: files in some order, each with a name, a number and data,
so many at most, and no more data than there is room for. The order is the one in which the files are
listed. A directory is changed by putting a file somewhere into the order, by taking one out, and by
giving one other data of the same cost; what is left in the order stays in it. -/

namespace NamedFiles

structure File (ν κ δ : Type) where
  name : ν
  id : κ
  data : δ

/-- How many files there can be, and how much their data may cost in all. -/
structure Limits (δ : Type) where
  maxFiles : ℕ
  capacity : ℕ
  cost : δ → ℕ

section

variable {ν κ δ : Type}

def used (L : Limits δ) (files : List (File ν κ δ)) : ℕ := (files.map fun f => L.cost f.data).sum

/-- Names and numbers each belong to one file, and the limits are kept. -/
structure Directory (L : Limits δ) (ν κ : Type) where
  files : List (File ν κ δ)
  names_nodup : (files.map File.name).Nodup
  ids_nodup : (files.map File.id).Nodup
  count_le : files.length ≤ L.maxFiles
  used_le : used L files ≤ L.capacity

/-- `l'` is `l` with one more file. -/
def Inserted (f : File ν κ δ) (l l' : List (File ν κ δ)) : Prop :=
  ∃ l1 l2, l = l1 ++ l2 ∧ l' = l1 ++ f :: l2

/-- `l'` is `l` with `g` in the place of `f`. -/
def Replaced (f g : File ν κ δ) (l l' : List (File ν κ δ)) : Prop :=
  ∃ l1 l2, l = l1 ++ f :: l2 ∧ l' = l1 ++ g :: l2

variable {L : Limits δ} {f g : File ν κ δ} {l l' : List (File ν κ δ)}

/-! ## Changes of the list -/

theorem Inserted.perm (h : Inserted f l l') : l'.Perm (f :: l) := by
  obtain ⟨l1, l2, rfl, rfl⟩ := h
  exact List.perm_middle

theorem Inserted.mem_iff (h : Inserted f l l') (x : File ν κ δ) : x ∈ l' ↔ x = f ∨ x ∈ l := by
  rw [h.perm.mem_iff, List.mem_cons]

theorem used_perm (h : l'.Perm l) : used L l' = used L l := (h.map _).sum_eq

theorem Inserted.used_eq (h : Inserted f l l') : used L l' = L.cost f.data + used L l := by
  rw [used_perm h.perm]
  exact List.sum_cons

theorem Replaced.map_eq {α : Type} {p : File ν κ δ → α} (h : Replaced f g l l') (hp : p g = p f) :
    l'.map p = l.map p := by
  obtain ⟨l1, l2, rfl, rfl⟩ := h
  rw [List.map_append, List.map_append, List.map_cons, List.map_cons, hp]

/-! ## Directories -/

namespace Directory

variable {D : Directory L ν κ}

/-- What is left of the capacity. -/
def free (D : Directory L ν κ) : ℕ := L.capacity - used L D.files

/-- No files. -/
def empty (L : Limits δ) (ν κ : Type) : Directory L ν κ where
  files := []
  names_nodup := List.nodup_nil
  ids_nodup := List.nodup_nil
  count_le := Nat.zero_le _
  used_le := Nat.zero_le _

/-- A new file with a new name and a new number, for which there is room. -/
def insert (D : Directory L ν κ) (h : Inserted f D.files l') (hname : ∀ g ∈ D.files, g.name ≠ f.name)
    (hid : ∀ g ∈ D.files, g.id ≠ f.id) (hcount : D.files.length < L.maxFiles)
    (hcost : L.cost f.data ≤ D.free) : Directory L ν κ where
  files := l'
  names_nodup := by
    rw [(h.perm.map _).nodup_iff, List.map_cons, List.nodup_cons]
    refine ⟨fun hmem => ?_, D.names_nodup⟩
    obtain ⟨g, hg, heq⟩ := List.mem_map.1 hmem
    exact hname g hg heq
  ids_nodup := by
    rw [(h.perm.map _).nodup_iff, List.map_cons, List.nodup_cons]
    refine ⟨fun hmem => ?_, D.ids_nodup⟩
    obtain ⟨g, hg, heq⟩ := List.mem_map.1 hmem
    exact hid g hg heq
  count_le := by
    rw [h.perm.length_eq, List.length_cons]
    exact hcount
  used_le := by
    have hused := D.used_le
    unfold free at hcost
    rw [h.used_eq]
    omega

/-- The directory without one of its files. -/
def erase (D : Directory L ν κ) (h : Inserted f l' D.files) : Directory L ν κ where
  files := l'
  names_nodup := by
    have hnodup := D.names_nodup
    rw [(h.perm.map _).nodup_iff, List.map_cons, List.nodup_cons] at hnodup
    exact hnodup.2
  ids_nodup := by
    have hnodup := D.ids_nodup
    rw [(h.perm.map _).nodup_iff, List.map_cons, List.nodup_cons] at hnodup
    exact hnodup.2
  count_le := by
    have hcount := D.count_le
    rw [h.perm.length_eq, List.length_cons] at hcount
    omega
  used_le := by
    have hused := D.used_le
    rw [h.used_eq] at hused
    omega

/-- Other data of the same cost for one of the files. -/
def replace (D : Directory L ν κ) (h : Replaced f g D.files l') (hname : g.name = f.name)
    (hid : g.id = f.id) (hcost : L.cost g.data = L.cost f.data) : Directory L ν κ where
  files := l'
  names_nodup := by
    rw [h.map_eq hname]
    exact D.names_nodup
  ids_nodup := by
    rw [h.map_eq hid]
    exact D.ids_nodup
  count_le := by
    have hlength := congrArg List.length (h.map_eq hname)
    rw [List.length_map, List.length_map] at hlength
    exact hlength.trans_le D.count_le
  used_le := by
    have hused : used L l' = used L D.files :=
      congrArg List.sum (h.map_eq (p := fun f => L.cost f.data) hcost)
    exact hused.trans_le D.used_le

end Directory

end

end NamedFiles
