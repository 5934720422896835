import Mathlib.Data.List.Range
import Mathlib.Logic.Basic

set_option autoImplicit false

/-! # Maximal runs

The maximal runs of the positions below `n` at which a predicate holds, each given by its first position
and the one behind its last. -/

namespace Runs

variable (p : ℕ → Prop)

/-- The positions from `a` up to `b` are a maximal run among the first `n`. -/
structure IsRun (n a b : ℕ) : Prop where
  nonempty : a < b
  le : b ≤ n
  mem : ∀ k, a ≤ k → k < b → p k
  left : a = 0 ∨ ¬p (a - 1)
  right : b = n ∨ ¬p b

/-- A run begins at the position. -/
def Starts (a : ℕ) : Prop := p a ∧ (a = 0 ∨ ¬p (a - 1))

section

variable {p}

theorem IsRun.starts {n a b : ℕ} (h : IsRun p n a b) : Starts p a :=
  ⟨h.mem a le_rfl h.nonempty, h.left⟩

/-- A run is given by its start. -/
theorem IsRun.end_unique {n a b b' : ℕ} (h : IsRun p n a b) (h' : IsRun p n a b') : b = b' := by
  have hle {b b' : ℕ} (h : IsRun p n a b) (h' : IsRun p n a b') : b ≤ b' := by
    by_contra hlt
    rcases h'.right with rfl | hnot
    · exact hlt h.le
    · exact hnot (h.mem b' (Nat.le_of_lt h'.nonempty) (by omega))
  exact Nat.le_antisymm (hle h h') (hle h' h)

/-- Between two runs there is a position that belongs to neither. -/
theorem IsRun.end_lt {n a b a' b' : ℕ} (h : IsRun p n a b) (h' : IsRun p n a' b') (hlt : a < a') :
    b < a' := by
  rcases h'.left with rfl | hnot
  · omega
  · by_contra hle
    exact hnot (h.mem (a' - 1) (by omega) (by omega))

end

variable [DecidablePred p]

instance : DecidablePred (Starts p) := fun a => inferInstanceAs (Decidable (p a ∧ (a = 0 ∨ ¬p (a - 1))))

/-- The positions at which the runs begin, in order. -/
def starts (n : ℕ) : List ℕ := (List.range n).filter fun a => decide (Starts p a)

/-- The end of the run that contains `a`. -/
def runEnd (n a : ℕ) : ℕ := ((List.range' a (n - a)).find? fun b => decide (¬p b)).getD n

/-- The maximal runs, in order. -/
def runs (n : ℕ) : List (ℕ × ℕ) := (starts p n).map fun a => (a, runEnd p n a)

variable {p}

theorem mem_starts {n a : ℕ} : a ∈ starts p n ↔ a < n ∧ Starts p a := by
  simp [starts]

theorem starts_pairwise (n : ℕ) : (starts p n).Pairwise (· < ·) := List.pairwise_lt_range.filter _

theorem starts_succ_of_starts {n : ℕ} (h : Starts p n) : starts p (n + 1) = starts p n ++ [n] := by
  unfold starts
  rw [List.range_succ, List.filter_append, List.filter_singleton, decide_eq_true h]
  rfl

theorem starts_succ_of_not {n : ℕ} (h : ¬Starts p n) : starts p (n + 1) = starts p n := by
  unfold starts
  rw [List.range_succ, List.filter_append, List.filter_singleton, decide_eq_false h]
  exact List.append_nil _

/-- No run begins between `i` and `j`. -/
theorem starts_eq_of_not {i j : ℕ} (hij : i ≤ j) (h : ∀ k, i ≤ k → k < j → ¬p k) :
    starts p j = starts p i := by
  induction j, hij using Nat.le_induction with
  | base => rfl
  | succ j hij ih =>
      have hnot : ¬Starts p j := fun hj => h j hij (Nat.lt_succ_self j) hj.1
      rw [starts_succ_of_not hnot]
      exact ih fun k hik hkj => h k hik (Nat.lt_succ_of_lt hkj)

/-- A start and the end of its run are a run. -/
theorem isRun_runEnd {n a : ℕ} (ha : a < n) (hstart : Starts p a) : IsRun p n a (runEnd p n a) := by
  unfold runEnd
  cases hfind : (List.range' a (n - a)).find? (fun b => decide (¬p b)) with
  | none =>
      rw [List.find?_range'_eq_none] at hfind
      refine ⟨ha, le_rfl, fun k hak hkn => ?_, hstart.2, Or.inl rfl⟩
      have := hfind k hak (by simp only [Option.getD_none] at hkn; omega)
      simpa using this
  | some b =>
      rw [List.find?_range'_eq_some] at hfind
      obtain ⟨hnot, hmem, hbefore⟩ := hfind
      have hb : a ≤ b ∧ b < n := by
        have := List.mem_range'_1.1 hmem
        omega
      have hne : a ≠ b := by
        rintro rfl
        rw [decide_eq_true_eq] at hnot
        exact hnot hstart.1
      exact ⟨show a < b by omega, show b ≤ n by omega,
        fun k hak hkb => by simpa using hbefore k hak hkb, hstart.2, Or.inr (by simpa using hnot)⟩

/-- **The list holds exactly the maximal runs.** -/
theorem mem_runs {n a b : ℕ} : (a, b) ∈ runs p n ↔ IsRun p n a b := by
  unfold runs
  rw [List.mem_map]
  constructor
  · rintro ⟨a', hmem, heq⟩
    obtain ⟨rfl, rfl⟩ := Prod.mk.inj heq
    obtain ⟨ha, hstart⟩ := mem_starts.1 hmem
    exact isRun_runEnd ha hstart
  · intro h
    have ha : a < n := Nat.lt_of_lt_of_le h.nonempty h.le
    refine ⟨a, mem_starts.2 ⟨ha, h.starts⟩, ?_⟩
    rw [(isRun_runEnd ha h.starts).end_unique h]

/-- The runs are in order, and apart from each other. -/
theorem runs_pairwise (n : ℕ) : (runs p n).Pairwise fun r r' => r.2 < r'.1 := by
  unfold runs
  rw [List.pairwise_map]
  refine (starts_pairwise n).imp_of_mem fun ha ha' hlt => ?_
  obtain ⟨hlta, hstart⟩ := mem_starts.1 ha
  obtain ⟨hlta', hstart'⟩ := mem_starts.1 ha'
  exact (isRun_runEnd hlta hstart).end_lt (isRun_runEnd hlta' hstart') hlt

end Runs
