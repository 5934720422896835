import Mathlib.Data.List.Basic
import Mathlib.Logic.Function.Basic
import Mathlib.Order.Nat

set_option autoImplicit false

/-! # Radix trees in a memory

A memory has tables, and the entries of a table are empty or point to another table. A path from a
root is a list of indices. `Forest` says that the trees below the live roots are trees, that is, that
a table has one path only, and that two roots have a table in common only if they both got it from
the base root, by sharing the entry of that root on the way. The operations are those of a lookup
structure that grows on demand: a fresh table is filled (`setTable`), linked into a tree (`link`) or
becomes a root that is a copy of the base root (`copy`), and an entry of a table at the bottom is set
(`setLeaf`). For each of them, it is said which paths change. -/

namespace Radix

variable {A ι : Type}

/-- Entry `i` of the table at `a`. -/
abbrev Memory (A ι : Type) := A → ι → Option A

/-- Follow a path from a table. -/
def follow (m : Memory A ι) : A → List ι → Option A
  | a, [] => some a
  | a, i :: path => (m a i).bind fun b => follow m b path

theorem follow_append (m : Memory A ι) (a : A) (path path' : List ι) :
    follow m a (path ++ path') = (follow m a path).bind fun b => follow m b path' := by
  induction path generalizing a with
  | nil => rfl
  | cons i path ih =>
      simp only [List.cons_append, follow]
      cases m a i with
      | none => rfl
      | some b => exact ih b

/-- Memories that agree along a path lead to the same table. -/
theorem follow_congr {m m' : Memory A ι} {r : A} {path : List ι}
    (h : ∀ pre j post b, path = pre ++ j :: post → follow m r pre = some b → m' b j = m b j) :
    follow m' r path = follow m r path := by
  induction path generalizing r with
  | nil => rfl
  | cons i path ih =>
      have hfirst : m' r i = m r i := h [] i path r rfl rfl
      simp only [follow, hfirst]
      cases hb : m r i with
      | none => rfl
      | some b =>
          refine ih fun pre j post c hpath hc => h (i :: pre) j post c (by rw [hpath]; rfl) ?_
          simp only [follow, hb]
          exact hc

/-- The memory with another value in one entry. -/
def setEntry [DecidableEq A] [DecidableEq ι] (m : Memory A ι) (a : A) (i : ι) (v : Option A) :
    Memory A ι :=
  fun b j => if b = a ∧ j = i then v else m b j

/-- `t` is in the tree of a live root, at most `n` levels below it. -/
def Node (m : Memory A ι) (live : A → Prop) (n : ℕ) (t : A) : Prop :=
  ∃ r path, live r ∧ path.length ≤ n ∧ follow m r path = some t

/-- The trees of the live roots, which may share entries of the base root `k`. -/
structure Forest (m : Memory A ι) (live : A → Prop) (k : A) (n : ℕ) : Prop where
  base : live k
  unique : ∀ r r' path path' t, live r → live r' → path.length ≤ n → path'.length ≤ n →
    follow m r path = some t → follow m r' path' = some t →
      path = path' ∧ (r = r' ∨ ∃ i rest, path = i :: rest ∧ m r i = m k i ∧ m r' i = m k i)

namespace Forest

variable {m : Memory A ι} {live live' : A → Prop} {k : A} {n : ℕ}

theorem node_root {r : A} (hr : live r) : Node m live n r := ⟨r, [], hr, Nat.zero_le n, rfl⟩

/-- Roots are not below each other. -/
theorem path_eq_nil (h : Forest m live k n) {r r' : A} {path : List ι} (hr : live r) (hr' : live r')
    (hlen : path.length ≤ n) (hpath : follow m r path = some r') : path = [] :=
  (h.unique r r' path [] r' hr hr' hlen (Nat.zero_le n) hpath rfl).1

/-- Some roots are given up. -/
theorem mono (h : Forest m live k n) (hsub : ∀ r, live' r → live r) (hk : live' k) :
    Forest m live' k n where
  base := hk
  unique r r' path path' t hr hr' := h.unique r r' path path' t (hsub r hr) (hsub r' hr')

section Update

variable [DecidableEq A]

/-- A table that is in no tree is filled: no path changes. -/
theorem follow_setTable {t : A} (ht : ¬ Node m live n t) (f : ι → Option A) {r : A} (hr : live r)
    {path : List ι} (hlen : path.length ≤ n + 1) :
    follow (Function.update m t f) r path = follow m r path := by
  refine follow_congr fun pre j post b hpath hb => ?_
  have hpre : pre.length ≤ n := by
    rw [hpath, List.length_append, List.length_cons] at hlen
    omega
  have hne : b ≠ t := by
    rintro rfl
    exact ht ⟨r, pre, hr, hpre, hb⟩
  rw [Function.update_of_ne hne]

theorem update_root {t : A} (ht : ¬ Node m live n t) (f : ι → Option A) {r : A} (hr : live r) :
    Function.update m t f r = m r := by
  refine Function.update_of_ne ?_ ..
  rintro rfl
  exact ht (node_root hr)

theorem setTable (h : Forest m live k n) {t : A} (ht : ¬ Node m live n t) (f : ι → Option A) :
    Forest (Function.update m t f) live k n := by
  refine ⟨h.base, ?_⟩
  intro r r' path path' x hr hr' hlen hlen' hx hx'
  rw [follow_setTable ht f hr (by omega)] at hx
  rw [follow_setTable ht f hr' (by omega)] at hx'
  rw [update_root ht f hr, update_root ht f hr', update_root ht f h.base]
  exact h.unique r r' path path' x hr hr' hlen hlen' hx hx'

/-- A fresh table becomes a root with the entries of the base root. -/
theorem follow_copy (h : Forest m live k n) {t : A} (ht : ¬ Node m live n t) {i : ι} {rest : List ι}
    (hlen : (i :: rest).length ≤ n + 1) :
    follow (Function.update m t (m k)) t (i :: rest) = follow m k (i :: rest) := by
  rw [← follow_setTable ht (m k) h.base hlen]
  simp only [follow, Function.update_self, update_root ht (m k) h.base]

/-- A path from the copy and one from an old root to the same table. -/
theorem copy_unique (h : Forest m live k n) {t : A} (ht : ¬ Node m live n t) {r : A} (hr : live r)
    {path path' : List ι} {x : A} (hlen : path.length ≤ n) (hlen' : path'.length ≤ n)
    (hx : follow (Function.update m t (m k)) t path = some x)
    (hx' : follow (Function.update m t (m k)) r path' = some x) :
    path = path' ∧ ∃ i rest, path = i :: rest ∧ m r i = m k i := by
  rw [follow_setTable ht (m k) hr (by omega)] at hx'
  cases path with
  | nil =>
      cases hx
      exact absurd ⟨r, path', hr, hlen', hx'⟩ ht
  | cons i rest =>
      rw [follow_copy h ht (by omega)] at hx
      obtain ⟨heq, hshare⟩ := h.unique k r (i :: rest) path' x h.base hr hlen hlen' hx hx'
      refine ⟨heq, i, rest, rfl, ?_⟩
      rcases hshare with rfl | ⟨i', rest', hpath, -, hm⟩
      · rfl
      · rw [(List.cons.inj hpath).1]
        exact hm

theorem copy (h : Forest m live k n) {t : A} (ht : ¬ Node m live n t) :
    Forest (Function.update m t (m k)) (fun r => live r ∨ r = t) k n := by
  have hk : Function.update m t (m k) k = m k := update_root ht (m k) h.base
  refine ⟨Or.inl h.base, ?_⟩
  intro r r' path path' x hr hr' hlen hlen' hx hx'
  rcases hr with hr | rfl
  · rcases hr' with hr' | rfl
    · exact (h.setTable ht (m k)).unique r r' path path' x hr hr' hlen hlen' hx hx'
    · obtain ⟨heq, i, rest, hpath, hm⟩ := h.copy_unique ht hr hlen' hlen hx' hx
      refine ⟨heq.symm, Or.inr ⟨i, rest, heq ▸ hpath, ?_, ?_⟩⟩
      · rw [hk, update_root ht (m k) hr, hm]
      · rw [hk, Function.update_self]
  · rcases hr' with hr' | rfl
    · obtain ⟨heq, i, rest, hpath, hm⟩ := h.copy_unique ht hr' hlen hlen' hx hx'
      refine ⟨heq, Or.inr ⟨i, rest, hpath, ?_, ?_⟩⟩
      · rw [hk, Function.update_self]
      · rw [hk, update_root ht (m k) hr', hm]
    · refine ⟨?_, Or.inl rfl⟩
      -- both paths start at the copy, so they are paths from the base root or empty
      cases path with
      | nil =>
          cases hx
          cases path' with
          | nil => rfl
          | cons i rest =>
              rw [follow_copy h ht (by omega)] at hx'
              exact absurd ⟨k, _, h.base, hlen', hx'⟩ ht
      | cons i rest =>
          rw [follow_copy h ht (by omega)] at hx
          cases path' with
          | nil =>
              cases hx'
              exact absurd ⟨k, _, h.base, hlen, hx⟩ ht
          | cons i' rest' =>
              rw [follow_copy h ht (by omega)] at hx'
              exact (h.unique k k _ _ x h.base h.base hlen hlen' hx hx').1

section Entry

variable [DecidableEq ι] {p a : A} {pre : List ι} {i : ι} {v : Option A}

/-- Setting an entry of a table in the tree of `p` changes only the paths through this entry. -/
theorem follow_setEntry_of_not (h : Forest m live k n) (hp : live p) (hpre : pre.length ≤ n)
    (ha : follow m p pre = some a) {r : A} (hr : live r) {path : List ι} (hlen : path.length ≤ n + 1)
    (hnot : ∀ post, path = pre ++ i :: post → follow m r pre ≠ some a) :
    follow (setEntry m a i v) r path = follow m r path := by
  refine follow_congr fun pre' j post b hpath hb => ?_
  unfold setEntry
  rw [if_neg]
  rintro ⟨rfl, rfl⟩
  have hpre' : pre'.length ≤ n := by
    rw [hpath, List.length_append, List.length_cons] at hlen
    omega
  obtain ⟨rfl, -⟩ := h.unique r p pre' pre b hr hp hpre' hpre hb ha
  exact hnot post hpath hb

/-- The way to the table itself is the same. -/
theorem follow_setEntry_self (h : Forest m live k n) (hp : live p) (hpre : pre.length ≤ n)
    (ha : follow m p pre = some a) {r : A} (hr : live r) :
    follow (setEntry m a i v) r pre = follow m r pre := by
  refine h.follow_setEntry_of_not hp hpre ha hr (by omega) fun post hpath => ?_
  have hlen := congrArg List.length hpath
  rw [List.length_append, List.length_cons] at hlen
  omega

/-- A path through the entry. -/
theorem follow_setEntry_through (h : Forest m live k n) (hp : live p) (hpre : pre.length ≤ n)
    (ha : follow m p pre = some a) {r : A} (hr : live r) (hra : follow m r pre = some a)
    (post : List ι) :
    follow (setEntry m a i v) r (pre ++ i :: post)
      = v.bind fun b => follow (setEntry m a i v) b post := by
  rw [follow_append, h.follow_setEntry_self hp hpre ha hr, hra]
  simp only [Option.bind_some, follow]
  unfold setEntry
  rw [if_pos ⟨rfl, rfl⟩]

/-- An entry of the root of a path that leads somewhere is not the empty entry that is set. -/
theorem setEntry_root (h : Forest m live k n) (hp : live p) (hpre : pre.length ≤ n)
    (ha : follow m p pre = some a) {r : A} (hr : live r) {j : ι}
    (hne : pre = [] → m a i ≠ m r j) : setEntry m a i v r j = m r j := by
  unfold setEntry
  rw [if_neg]
  rintro ⟨rfl, rfl⟩
  exact hne (h.path_eq_nil hp hr hpre ha) rfl

/-- Linking the fresh, empty table `t` into a tree adds one path, to `t`. -/
theorem follow_link (h : Forest m live k n) (hp : live p) (hpre : pre.length < n)
    (ha : follow m p pre = some a) (hempty : m a i = none) {t : A} (ht : ¬ Node m live n t)
    (htable : ∀ j, m t j = none) {r : A} (hr : live r) {path : List ι} (hlen : path.length ≤ n + 1) :
    (follow m r pre = some a ∧ path = pre ++ [i] ∧ follow (setEntry m a i (some t)) r path = some t) ∨
      follow (setEntry m a i (some t)) r path = follow m r path := by
  by_cases hnot : ∀ post, path = pre ++ i :: post → follow m r pre ≠ some a
  · exact Or.inr (h.follow_setEntry_of_not hp hpre.le ha hr hlen hnot)
  · push Not at hnot
    obtain ⟨post, rfl, hra⟩ := hnot
    have hta : t ≠ a := by
      rintro rfl
      exact ht ⟨p, pre, hp, hpre.le, ha⟩
    rw [h.follow_setEntry_through hp hpre.le ha hr hra]
    cases post with
    | nil => exact Or.inl ⟨hra, rfl, rfl⟩
    | cons j post =>
        -- the new table has no entries, and before there was no table
        refine Or.inr ?_
        have hnone : setEntry m a i (some t) t j = none := by
          unfold setEntry
          rw [if_neg (fun h => hta h.1), htable]
        have hold : follow m r (pre ++ i :: j :: post) = none := by
          rw [follow_append, hra]
          simp only [Option.bind_some, follow, hempty, Option.bind_none]
        simp only [Option.bind_some, follow, hnone, Option.bind_none, hold]

/-- In particular, no path to the bottom changes. -/
theorem follow_link_bottom (h : Forest m live k n) (hp : live p) (hpre : pre.length < n)
    (ha : follow m p pre = some a) (hempty : m a i = none) {t : A} (ht : ¬ Node m live n t)
    (htable : ∀ j, m t j = none) {r : A} (hr : live r) {path : List ι} (hlen : path.length = n + 1) :
    follow (setEntry m a i (some t)) r path = follow m r path := by
  rcases h.follow_link hp hpre ha hempty ht htable hr hlen.le with ⟨-, rfl, -⟩ | hsame
  · rw [List.length_append, List.length_singleton] at hlen
    omega
  · exact hsame

theorem link (h : Forest m live k n) (hp : live p) (hpre : pre.length < n)
    (ha : follow m p pre = some a) (hempty : m a i = none) {t : A} (ht : ¬ Node m live n t)
    (htable : ∀ j, m t j = none) : Forest (setEntry m a i (some t)) live k n := by
  have hroot : ∀ r, live r → ∀ j, m r j ≠ none → setEntry m a i (some t) r j = m r j := by
    intro r hr j hj
    exact h.setEntry_root hp hpre.le ha hr fun _ heq => hj (heq ▸ hempty)
  refine ⟨h.base, ?_⟩
  intro r r' path path' x hr hr' hlen hlen' hx hx'
  rcases h.follow_link hp hpre ha hempty ht htable hr (Nat.le_succ_of_le hlen) with
    ⟨hra, hpath, hnew⟩ | hsame
  · rcases h.follow_link hp hpre ha hempty ht htable hr' (Nat.le_succ_of_le hlen') with
      ⟨hra', hpath', -⟩ | hsame'
    · refine ⟨hpath.trans hpath'.symm, ?_⟩
      rcases (h.unique r r' pre pre a hr hr' hpre.le hpre.le hra hra').2 with heq | ⟨j, rest, rfl, hm, hm'⟩
      · exact Or.inl heq
      · have hj : m r j ≠ none := by
          intro hnone
          simp only [follow, hnone, Option.bind_none] at hra
          cases hra
        refine Or.inr ⟨j, rest ++ [i], by rw [hpath]; rfl, ?_, ?_⟩
        · rw [hroot r hr j hj, hroot k h.base j (hm ▸ hj), hm]
        · rw [hroot r' hr' j (by rw [hm', ← hm]; exact hj), hroot k h.base j (hm ▸ hj), hm']
    · rw [hsame'] at hx'
      rw [hnew] at hx
      cases hx
      exact absurd ⟨r', path', hr', hlen', hx'⟩ ht
  · rw [hsame] at hx
    rcases h.follow_link hp hpre ha hempty ht htable hr' (Nat.le_succ_of_le hlen') with
      ⟨-, -, hnew'⟩ | hsame'
    · rw [hnew'] at hx'
      cases hx'
      exact absurd ⟨r, path, hr, hlen, hx⟩ ht
    · rw [hsame'] at hx'
      obtain ⟨heq, hshare⟩ := h.unique r r' path path' x hr hr' hlen hlen' hx hx'
      refine ⟨heq, ?_⟩
      rcases hshare with heq | ⟨j, rest, rfl, hm, hm'⟩
      · exact Or.inl heq
      · have hj : m r j ≠ none := by
          intro hnone
          simp only [follow, hnone, Option.bind_none] at hx
          cases hx
        refine Or.inr ⟨j, rest, rfl, ?_, ?_⟩
        · rw [hroot r hr j hj, hroot k h.base j (hm ▸ hj), hm]
        · rw [hroot r' hr' j (by rw [hm', ← hm]; exact hj), hroot k h.base j (hm ▸ hj), hm']

/-- Setting an entry of a table at the bottom changes no tree. -/
theorem follow_setLeaf (h : Forest m live k n) (hp : live p) (hpre : pre.length = n)
    (ha : follow m p pre = some a) {r : A} (hr : live r) {path : List ι} (hlen : path.length ≤ n) :
    follow (setEntry m a i v) r path = follow m r path := by
  refine h.follow_setEntry_of_not hp hpre.le ha hr (by omega) fun post hpath => ?_
  rw [hpath, List.length_append, List.length_cons] at hlen
  omega

/-- And of the paths to the bottom, those through the entry. -/
theorem follow_setLeaf_bottom (h : Forest m live k n) (hp : live p) (hpre : pre.length = n)
    (ha : follow m p pre = some a) {r : A} (hr : live r) {path : List ι}
    (hlen : path.length = n + 1) :
    follow (setEntry m a i v) r path =
      if follow m r pre = some a ∧ path = pre ++ [i] then v else follow m r path := by
  split
  · next hthrough =>
      obtain ⟨hra, rfl⟩ := hthrough
      rw [h.follow_setEntry_through hp hpre.le ha hr hra]
      cases v <;> rfl
  · next hnot =>
      refine h.follow_setEntry_of_not hp hpre.le ha hr hlen.le fun post hpath hra => hnot ⟨hra, ?_⟩
      have hpost : post = [] := by
        rw [hpath, List.length_append, List.length_cons] at hlen
        exact List.eq_nil_of_length_eq_zero (by omega)
      rw [hpath, hpost]

theorem setLeaf (h : Forest m live k n) (hp : live p) (hpre : pre.length = n) (hn : 0 < n)
    (ha : follow m p pre = some a) : Forest (setEntry m a i v) live k n := by
  have hroot : ∀ r, live r → ∀ j, setEntry m a i v r j = m r j := by
    intro r hr j
    refine h.setEntry_root hp hpre.le ha hr fun hnil => ?_
    rw [hnil, List.length_nil] at hpre
    omega
  refine ⟨h.base, ?_⟩
  intro r r' path path' x hr hr' hlen hlen' hx hx'
  rw [h.follow_setLeaf hp hpre ha hr hlen] at hx
  rw [h.follow_setLeaf hp hpre ha hr' hlen'] at hx'
  obtain ⟨heq, hshare⟩ := h.unique r r' path path' x hr hr' hlen hlen' hx hx'
  refine ⟨heq, ?_⟩
  rcases hshare with heq | ⟨j, rest, hpath, hm, hm'⟩
  · exact Or.inl heq
  · exact Or.inr ⟨j, rest, hpath, by rw [hroot r hr, hroot k h.base, hm],
      by rw [hroot r' hr', hroot k h.base, hm']⟩

end Entry

end Update

end Forest

end Radix
