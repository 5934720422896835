import Kudos.Fs.VfsAccounting

set_option autoImplicit false

/-! # Reads of several threads through one handle

`vfs_read` takes the seek position of its row, calls the driver with it, and adds what the driver has
returned to the position under the lock of the table. The lock does not cover the first of these steps:
a read that takes the position before another one has moved it returns bytes that the other one returns
too. The reads of a run give out consecutive pieces of the file if and only if each driver call
that returns bytes was made for the position that the row still has (`readReachable_iff`). -/

namespace Kudos

open CInt Transition

variable {ι : Type} [DecidableEq ι]

/-! ## Consecutive ranges -/

/-- Two ranges of bytes, each a start and a length, have no byte in common. -/
def RangesDisjoint (r r' : ℤ × ℤ) : Prop := r.1 + r.2 ≤ r'.1 ∨ r'.1 + r'.2 ≤ r.1

/-- Ranges one after the other, from `a` up to `b`. -/
def Consecutive : List (ℤ × ℤ) → ℤ → ℤ → Prop
  | [], a, b => a = b
  | r :: rs, a, b => r.1 = a ∧ 0 < r.2 ∧ Consecutive rs (r.1 + r.2) b

theorem Consecutive.concat {rs : List (ℤ × ℤ)} {a b n : ℤ} (h : Consecutive rs a b) (hn : 0 < n) :
    Consecutive (rs ++ [(b, n)]) a (b + n) := by
  induction rs generalizing a with
  | nil =>
      have hab : a = b := h
      rw [hab]
      exact ⟨rfl, hn, rfl⟩
  | cons r rs ih => exact ⟨h.1, h.2.1, ih h.2.2⟩

theorem Consecutive.le {rs : List (ℤ × ℤ)} {a b : ℤ} (h : Consecutive rs a b) : a ≤ b := by
  induction rs generalizing a with
  | nil => exact le_of_eq h
  | cons r rs ih =>
      have := ih h.2.2
      have := h.1
      have := h.2.1
      omega

/-- The ranges cover what is between the ends. -/
theorem Consecutive.mem_iff {rs : List (ℤ × ℤ)} {a b : ℤ} (h : Consecutive rs a b) (x : ℤ) :
    (∃ r ∈ rs, r.1 ≤ x ∧ x < r.1 + r.2) ↔ a ≤ x ∧ x < b := by
  induction rs generalizing a with
  | nil =>
      have hab : a = b := h
      constructor
      · rintro ⟨r, hr, -⟩
        exact absurd hr List.not_mem_nil
      · intro hx
        omega
  | cons r rs ih =>
      obtain ⟨hstart, hpos, hrest⟩ := h
      have hle := hrest.le
      rw [List.exists_mem_cons_iff, ih hrest]
      omega

theorem Consecutive.pos_of_mem {rs : List (ℤ × ℤ)} {a b : ℤ} (h : Consecutive rs a b) {r : ℤ × ℤ}
    (hr : r ∈ rs) : 0 < r.2 := by
  induction rs generalizing a with
  | nil => exact absurd hr List.not_mem_nil
  | cons r' rs ih =>
      rcases List.mem_cons.1 hr with rfl | hr
      · exact h.2.1
      · exact ih h.2.2 hr

theorem Consecutive.pairwise {rs : List (ℤ × ℤ)} {a b : ℤ} (h : Consecutive rs a b) :
    rs.Pairwise RangesDisjoint := by
  induction rs generalizing a with
  | nil => exact List.Pairwise.nil
  | cons r rs ih =>
      obtain ⟨hstart, hpos, hrest⟩ := h
      refine List.Pairwise.cons (fun r' hr' => Or.inl ?_) (ih hrest)
      -- a later range covers its own first byte
      have hfirst := hrest.pos_of_mem hr'
      exact ((hrest.mem_iff r'.1).1 ⟨r', hr', le_refl _, by omega⟩).1

/-! ## Runs of reads -/

/-- The bytes that a driver returns in the step: where they start in the file, and how many. -/
def VfsProc.got (result : ℤ) : VfsProc ℤ → List (ℤ × ℤ)
  | driver (.read _ _ _ offset) _ => if 0 < result then [(offset, result)] else []
  | _ => []

def VfsSystem.got (s : VfsSystem ι) : VfsLabel ι → List (ℤ × ℤ)
  | .run i result => (s.threads i).elim [] fun th => th.proc.got result
  | .call _ _ | .deinit => []

/-- The call is about to change the open file table, under its lock. -/
def VfsProc.updating : VfsProc ℤ → Bool
  | semaphoreP _ _ | store _ _ => true
  | _ => false

/-- If the step returns bytes, they were read at the position that the row still has, and no other call
is about to move it. -/
def VfsSystem.Current (s : VfsSystem ι) (file : ℤ) (a : VfsLabel ι) : Prop :=
  ∀ r ∈ s.got a, r.1 = (s.tables.files file).seekPosition ∧
    ∀ j, ∀ th ∈ s.threads j, th.proc.updating = false

/-- The VFS, the ranges of bytes that reads have returned, and whether all steps so far were
`Current`. -/
structure ReadSystem (ι : Type) where
  sys : VfsSystem ι
  ranges : List (ℤ × ℤ)
  current : Prop

/-- The state after the step `a`, which leads to `s`. -/
def ReadSystem.after (S : ReadSystem ι) (file : ℤ) (a : VfsLabel ι) (s : VfsSystem ι) :
    ReadSystem ι := ⟨s, S.ranges ++ S.sys.got a, S.current ∧ S.sys.Current file a⟩

/-- The threads read through the handle and do nothing else. -/
def VfsLabel.IsRead (file : ℤ) : VfsLabel ι → Prop
  | .call _ c => ∃ buffer bufsize, c = .read file buffer bufsize
  | .run _ _ => True
  | .deinit => False

/-- A step in which the driver, if it returns bytes, returns bytes of the file. -/
inductive ReadStep (file fileSize : ℤ) : ReadSystem ι → VfsLabel ι → ReadSystem ι → Prop
  | mk {S : ReadSystem ι} {a : VfsLabel ι} {sys' : VfsSystem ι} :
      a.IsRead file → S.sys.exec a = some sys' → (∀ r ∈ S.sys.got a, r.1 + r.2 ≤ fileSize) →
      ReadStep file fileSize S a (S.after file a sys')

/-- An open handle with its seek position, and no call going on. -/
structure ReadInit (file pos : ℤ) (S : ReadSystem ι) : Prop where
  isOpen : S.sys.tables.IsOpen file
  seekPosition : (S.sys.tables.files file).seekPosition = pos
  isInt : 0 ≤ pos ∧ pos ≤ intMax
  idle : ∀ i, S.sys.idle i = true
  ranges : S.ranges = []
  current : S.current

/-! ## The stages of a read -/

/-- What is left of a read when the driver has returned bytes and the row is locked. -/
def readUpdate (file ret : ℤ) : VfsProc ℤ :=
  .store (fun t => t.setFile file
    { t.files file with seekPosition := wrap32 ((t.files file).seekPosition + ret) })
    (.semaphoreV .openfile (.endOp (.done ret)))

/-- What is left of a read when it has taken its position. -/
def readDriver (file : ℤ) (fs : ℕ) (fileid bufsize offset : ℤ) : VfsProc ℤ :=
  .driver (.read fs fileid bufsize offset) fun ret =>
    if 0 < ret then .semaphoreP .openfile (readUpdate file ret) else .endOp (.done ret)

/-- A read that has not taken its position yet, or has nothing left to do with it. -/
def VfsProc.Seeking (file : ℤ) : VfsProc ℤ → Prop
  | done _ | panic => True
  | startOp k => ∀ r, (k r).Seeking file
  | endOp k | semaphoreV _ k => k.Seeking file
  | verifyOpen _ k => ∀ b, (k b).Seeking file
  | load k => ∀ t, (k t).Seeking file ∨ ∃ fs fileid bufsize,
      k t = readDriver file fs fileid bufsize (t.files file).seekPosition
  | semaphoreP _ _ | store _ _ | driver _ _ => False

theorem vfsRead_seeking (file : ℤ) (buffer : ℕ) (bufsize : ℤ) :
    (vfsRead file buffer bufsize).Seeking file := by
  intro r
  show VfsProc.Seeking file (ite _ _ _)
  split
  · trivial
  · intro b
    cases b with
    | false => trivial
    | true =>
        intro t
        left
        show VfsProc.Seeking file ((vfsAssert _).bind _)
        unfold vfsAssert
        split
        · intro t'
          show VfsProc.Seeking file ((fsCall _ _).bind _) ∨ _
          cases (t.files file).filesystem with
          | none => exact Or.inl trivial
          | some fs =>
              exact Or.inr ⟨fs, (t'.files file).fileid, bufsize, rfl⟩
        · trivial

/-- A read whose driver has returned bytes, before it has moved the position. -/
def Updating (file ret : ℤ) (p : VfsProc ℤ) : Prop :=
  0 < ret ∧ (p = .semaphoreP .openfile (readUpdate file ret) ∨ p = readUpdate file ret)

theorem Updating.got {file ret r : ℤ} {p : VfsProc ℤ} (h : Updating file ret p) : p.got r = [] := by
  rcases h.2 with rfl | rfl <;> rfl

/-- A read without a position gets no bytes. -/
theorem VfsProc.Seeking.got {file r : ℤ} {p : VfsProc ℤ} (h : p.Seeking file) : p.got r = [] := by
  cases p with
  | driver call k => exact h.elim
  | _ => rfl

theorem Updating.updating {file ret : ℤ} {p : VfsProc ℤ} (h : Updating file ret p) :
    p.updating = true := by
  rcases h.2 with rfl | rfl <;> rfl

section

omit [DecidableEq ι]

/-- A step of a read before it has its position: the tables stay, and if it takes its position it
takes that of the row. -/
theorem VfsThread.step_seeking {file : ℤ} {th th' : VfsThread} {s s' : VfsSystem ι} {r : ℤ}
    (hseek : th.proc.Seeking file) (hstep : th.step s r = some (th', s')) :
    s'.tables = s.tables ∧ s'.threads = s.threads ∧
      (th'.proc.Seeking file ∨ ∃ fs fileid bufsize,
        th'.proc = readDriver file fs fileid bufsize (s.tables.files file).seekPosition) := by
  cases hproc : th.proc with
  | done a | panic => simp [VfsThread.step, hproc] at hstep
  | semaphoreP sem k | store f k | driver call k =>
      rw [hproc] at hseek
      exact hseek.elim
  | startOp k =>
      rw [hproc] at hseek
      simp only [VfsThread.step, hproc] at hstep
      cases hstep
      exact ⟨rfl, rfl, Or.inl (hseek _)⟩
  | endOp k =>
      rw [hproc] at hseek
      simp only [VfsThread.step, hproc] at hstep
      split at hstep
      · cases hstep
        exact ⟨rfl, rfl, Or.inl hseek⟩
      · cases hstep
        exact ⟨rfl, rfl, Or.inl trivial⟩
  | semaphoreV sem k =>
      rw [hproc] at hseek
      simp only [VfsThread.step, hproc] at hstep
      cases hstep
      exact ⟨rfl, rfl, Or.inl hseek⟩
  | load k =>
      rw [hproc] at hseek
      simp only [VfsThread.step, hproc] at hstep
      cases hstep
      exact ⟨rfl, rfl, hseek s.tables⟩
  | verifyOpen file' k =>
      rw [hproc] at hseek
      simp only [VfsThread.step, hproc] at hstep
      cases hstep
      exact ⟨rfl, rfl, Or.inl (hseek _)⟩

theorem got_run {s : VfsSystem ι} {i : ι} {th : VfsThread} {r : ℤ} (hth : s.threads i = some th) :
    s.got (.run i r) = th.proc.got r := by
  show (s.threads i).elim [] _ = _
  rw [hth]
  rfl

end

/-! ## The invariant -/

/-- The bytes by which a position still has to be moved. -/
def owed (pend : Option (ι × ℤ)) : ℤ := (pend.map Prod.snd).getD 0

/-- As long as all steps are `Current`: at most one read has bytes for which the position has not been
moved, and the ranges lead from the first position to where the position is or will be. -/
structure ReadFresh (file pos : ℤ) (S : ReadSystem ι) (pend : Option (ι × ℤ)) : Prop where
  stages : ∀ i, ∀ th ∈ S.sys.threads i, th.proc.Seeking file ∨
    (∃ fs fileid bufsize offset, th.proc = readDriver file fs fileid bufsize offset ∧
      pos ≤ offset ∧ offset ≤ (S.sys.tables.files file).seekPosition) ∨
    ∃ ret, pend = some (i, ret) ∧ Updating file ret th.proc
  pending : ∀ p ∈ pend, ∃ th ∈ S.sys.threads p.1, Updating file p.2 th.proc
  ranges : Consecutive S.ranges pos ((S.sys.tables.files file).seekPosition + owed pend)
  isInt : 0 ≤ pos ∧ (S.sys.tables.files file).seekPosition + owed pend ≤ intMax
  moved : pos ≤ (S.sys.tables.files file).seekPosition

/-- The invariant of all runs: a step that is not `Current` has returned bytes for the second time. -/
def ReadInv (file pos : ℤ) (S : ReadSystem ι) : Prop :=
  (S.current ∧ ∃ pend, ReadFresh file pos S pend) ∨
    (¬ S.current ∧ ¬ S.ranges.Pairwise RangesDisjoint)

omit [DecidableEq ι] in
theorem readInit_inv {file pos : ℤ} {S : ReadSystem ι} (h : ReadInit file pos S) :
    ReadInv file pos S := by
  refine Or.inl ⟨h.current, none, ?_, nofun, ?_, ?_, ?_⟩
  · intro i th hth
    left
    have hidle := h.idle i
    unfold VfsSystem.idle at hidle
    rw [show S.sys.threads i = some th from hth] at hidle
    cases hproc : th.proc with
    | done a => trivial
    | _ =>
        rw [Option.all_some, hproc] at hidle
        cases hidle
  · rw [h.ranges, h.seekPosition]
    exact (add_zero pos).symm
  · rw [h.seekPosition, show owed (none : Option (ι × ℤ)) = 0 from rfl, add_zero]
    exact h.isInt
  · exact le_of_eq h.seekPosition.symm

section

variable {file pos : ℤ} {S S' : ReadSystem ι} {pend : Option (ι × ℤ)} {i : ι} {th th' : VfsThread}

/-- A step of one thread that moves no position and gets no bytes. -/
theorem ReadFresh.replace (h : ReadFresh file pos S pend)
    (htables : S'.sys.tables = S.sys.tables)
    (hthreads : S'.sys.threads = Function.update S.sys.threads i (some th'))
    (hranges : S'.ranges = S.ranges)
    (hstage : th'.proc.Seeking file ∨
      (∃ fs fileid bufsize offset, th'.proc = readDriver file fs fileid bufsize offset ∧
        pos ≤ offset ∧ offset ≤ (S.sys.tables.files file).seekPosition) ∨
      ∃ ret, pend = some (i, ret) ∧ Updating file ret th'.proc)
    (hpend : ∀ ret, pend = some (i, ret) → Updating file ret th'.proc) :
    ReadFresh file pos S' pend := by
  refine ⟨fun j u hu => ?_, fun p hp => ?_, ?_, ?_, ?_⟩
  · rw [htables]
    rw [hthreads] at hu
    by_cases hj : j = i
    · subst hj
      rw [Function.update_self, Option.mem_some] at hu
      subst hu
      exact hstage
    · rw [Function.update_of_ne hj] at hu
      exact h.stages j u hu
  · rw [hthreads]
    by_cases hj : p.1 = i
    · refine ⟨th', ?_, ?_⟩
      · rw [hj, Function.update_self]
        exact Option.mem_some_self _
      · refine hpend p.2 ?_
        rw [← hj]
        exact hp
    · obtain ⟨u, hu, hup⟩ := h.pending p hp
      exact ⟨u, by rwa [Function.update_of_ne hj], hup⟩
  · rw [htables, hranges]
    exact h.ranges
  · rw [htables]
    exact h.isInt
  · rw [htables]
    exact h.moved

omit [DecidableEq ι] in
/-- A thread with a read that is not updating has no bytes waiting. -/
theorem ReadFresh.not_pending (h : ReadFresh file pos S pend) (hth : S.sys.threads i = some th)
    (hnot : th.proc.updating = false) (ret : ℤ) : pend ≠ some (i, ret) := by
  intro hp
  obtain ⟨u, hu, hup⟩ := h.pending (i, ret) hp
  have heq : u = th := Option.some.inj ((show S.sys.threads i = some u from hu).symm.trans hth)
  rw [heq] at hup
  rw [hup.updating] at hnot
  cases hnot

/-- The driver has returned bytes for the position of the row. -/
theorem ReadFresh.returned {ret fileSize : ℤ} (h : ReadFresh file pos S none)
    (htables : S'.sys.tables = S.sys.tables)
    (hthreads : S'.sys.threads = Function.update S.sys.threads i (some th'))
    (hranges : S'.ranges = S.ranges ++ [((S.sys.tables.files file).seekPosition, ret)])
    (hproc : Updating file ret th'.proc) (hsize : fileSize ≤ intMax)
    (hfile : (S.sys.tables.files file).seekPosition + ret ≤ fileSize) :
    ReadFresh file pos S' (some (i, ret)) := by
  refine ⟨fun j u hu => ?_, fun p hp => ?_, ?_, ?_, ?_⟩
  · rw [htables]
    rw [hthreads] at hu
    by_cases hj : j = i
    · subst hj
      rw [Function.update_self, Option.mem_some] at hu
      subst hu
      exact Or.inr (Or.inr ⟨ret, rfl, hproc⟩)
    · rw [Function.update_of_ne hj] at hu
      rcases h.stages j u hu with hseek | hdriver | ⟨ret', hnone, -⟩
      · exact Or.inl hseek
      · exact Or.inr (Or.inl hdriver)
      · cases hnone
  · rw [Option.mem_some] at hp
    rw [hthreads, ← hp, Function.update_self]
    exact ⟨th', Option.mem_some_self _, hproc⟩
  · rw [htables, hranges]
    have hold := h.ranges
    rw [show owed (none : Option (ι × ℤ)) = 0 from rfl, add_zero] at hold
    exact hold.concat hproc.1
  · rw [htables]
    exact ⟨h.isInt.1, le_trans hfile hsize⟩
  · rw [htables]
    exact h.moved

/-- The position is moved by the bytes that were returned. -/
theorem ReadFresh.update {ret : ℤ} (h : ReadFresh file pos S (some (i, ret)))
    (htables : S'.sys.tables = S.sys.tables.setFile file { S.sys.tables.files file with
      seekPosition := wrap32 ((S.sys.tables.files file).seekPosition + ret) })
    (hthreads : S'.sys.threads = Function.update S.sys.threads i (some th'))
    (hranges : S'.ranges = S.ranges) (hproc : th'.proc.Seeking file) (hpos : 0 < ret) :
    ReadFresh file pos S' none := by
  have howed : owed (some (i, ret)) = ret := rfl
  have hmoved := h.moved
  have hint := h.isInt
  rw [howed] at hint
  have hseek : (S'.sys.tables.files file).seekPosition
      = (S.sys.tables.files file).seekPosition + ret := by
    rw [htables, VfsTables.setFile_files_self]
    exact wrap32_of_nonneg (by omega) hint.2
  refine ⟨fun j u hu => ?_, nofun, ?_, ?_, ?_⟩
  · rw [hthreads] at hu
    rw [hseek]
    by_cases hj : j = i
    · subst hj
      rw [Function.update_self, Option.mem_some] at hu
      subst hu
      exact Or.inl hproc
    · rw [Function.update_of_ne hj] at hu
      rcases h.stages j u hu with hs | ⟨fs, fileid, bufsize, offset, heq, hlo, hhi⟩ | ⟨ret', heq, -⟩
      · exact Or.inl hs
      · exact Or.inr (Or.inl ⟨fs, fileid, bufsize, offset, heq, hlo, by omega⟩)
      · rw [Option.some.injEq, Prod.mk.injEq] at heq
        exact absurd heq.1.symm hj
  · rw [hseek, hranges, show owed (none : Option (ι × ℤ)) = 0 from rfl, add_zero]
    exact h.ranges
  · rw [hseek, show owed (none : Option (ι × ℤ)) = 0 from rfl, add_zero]
    exact hint
  · omega

omit [DecidableEq ι] in
/-- Bytes from a position that is not that of the row, or that is about to be moved, have been
returned before. -/
theorem ReadFresh.stale (h : ReadFresh file pos S pend) {offset ret : ℤ} (hlo : pos ≤ offset)
    (hhi : offset ≤ (S.sys.tables.files file).seekPosition) (hret : 0 < ret)
    (hnot : ¬ (offset = (S.sys.tables.files file).seekPosition ∧
      ∀ j, ∀ u ∈ S.sys.threads j, u.proc.updating = false)) :
    ¬ (S.ranges ++ [(offset, ret)]).Pairwise RangesDisjoint := by
  have hbefore : offset < (S.sys.tables.files file).seekPosition + owed pend := by
    cases pend with
    | some p =>
        obtain ⟨u, -, hup⟩ := h.pending p rfl
        have := hup.1
        rw [show owed (some p) = p.2 from rfl]
        omega
    | none =>
        rw [show owed (none : Option (ι × ℤ)) = 0 from rfl]
        by_contra hge
        refine hnot ⟨by omega, fun j u hu => ?_⟩
        rcases h.stages j u hu with hs | ⟨fs, fileid, bufsize, o, heq, -, -⟩ | ⟨ret', heq, -⟩
        · cases hproc : u.proc with
          | semaphoreP sem k | store f k =>
              rw [hproc] at hs
              exact hs.elim
          | _ => rfl
        · rw [heq]
          rfl
        · cases heq
  obtain ⟨r, hr, hstart, hend⟩ := (h.ranges.mem_iff offset).2 ⟨hlo, hbefore⟩
  intro hpair
  have hdisj := (List.pairwise_append.1 hpair).2.2 r hr _ List.mem_cons_self
  unfold RangesDisjoint at hdisj
  simp only at hdisj
  omega

end

section

variable {file pos fileSize : ℤ} {S : ReadSystem ι} {pend : Option (ι × ℤ)} {i : ι} {th th' : VfsThread}
  {s1 : VfsSystem ι} {r : ℤ}

omit [DecidableEq ι] in
/-- A step without bytes leaves the run as it is. -/
theorem ReadFresh.quiet {a : VfsLabel ι} {s : VfsSystem ι} (pend' : Option (ι × ℤ))
    (hcur : S.current) (hgot : S.sys.got a = [])
    (h : ReadFresh file pos ⟨s, S.ranges, S.current⟩ pend') :
    ReadInv file pos (S.after file a s) := by
  refine Or.inl ⟨⟨hcur, fun r hr => ?_⟩, pend', ?_⟩
  · rw [hgot] at hr
    exact absurd hr List.not_mem_nil
  · have hranges : (S.after file a s).ranges = S.ranges := by
      unfold ReadSystem.after
      rw [hgot, List.append_nil]
    exact ⟨h.stages, h.pending, hranges ▸ h.ranges, h.isInt, h.moved⟩

theorem ReadFresh.call (h : ReadFresh file pos S pend) (hcur : S.current)
    (hidle : S.sys.idle i = true) (buffer : ℕ) (bufsize : ℤ) :
    ReadInv file pos (S.after file (.call i (.read file buffer bufsize))
      (S.sys.setThread i ⟨.read file buffer bufsize, false, vfsRead file buffer bufsize⟩)) := by
  refine ReadFresh.quiet pend hcur rfl ?_
  refine h.replace rfl rfl rfl (Or.inl (vfsRead_seeking file buffer bufsize)) fun ret hp => ?_
  -- a thread without a call is not waiting to update the row
  obtain ⟨u, hu, hup⟩ := h.pending (i, ret) hp
  unfold VfsSystem.idle at hidle
  rw [show S.sys.threads i = some u from hu, Option.all_some] at hidle
  have hupd := hup.updating
  cases hproc : u.proc with
  | done a =>
      rw [hproc] at hupd
      cases hupd
  | _ =>
      rw [hproc] at hidle
      cases hidle

theorem ReadFresh.seeking (h : ReadFresh file pos S pend) (hcur : S.current)
    (hth : S.sys.threads i = some th) (hseek : th.proc.Seeking file)
    (hrun : th.step S.sys r = some (th', s1)) :
    ReadInv file pos (S.after file (.run i r) (s1.setThread i th')) := by
  obtain ⟨htables, hthreads, hstage⟩ := VfsThread.step_seeking hseek hrun
  have hnot : th.proc.updating = false := by
    cases hproc : th.proc with
    | semaphoreP sem k | store f k =>
        rw [hproc] at hseek
        exact hseek.elim
    | _ => rfl
  refine ReadFresh.quiet pend hcur ((got_run hth).trans hseek.got) ?_
  refine h.replace htables (by rw [← hthreads]; rfl) rfl ?_ ?_
  · rcases hstage with hs | ⟨fs, fileid, bufsize, hproc⟩
    · exact Or.inl hs
    · exact Or.inr (Or.inl ⟨fs, fileid, bufsize, _, hproc, h.moved, le_refl _⟩)
  · exact fun ret hp => absurd hp (h.not_pending hth hnot ret)

theorem ReadFresh.driver (h : ReadFresh file pos S pend) (hcur : S.current)
    (hsize : fileSize ≤ intMax) (hth : S.sys.threads i = some th) {fs : ℕ}
    {fileid bufsize offset : ℤ} (hproc : th.proc = readDriver file fs fileid bufsize offset)
    (hlo : pos ≤ offset) (hhi : offset ≤ (S.sys.tables.files file).seekPosition)
    (hfile : ∀ r' ∈ S.sys.got (.run i r), r'.1 + r'.2 ≤ fileSize)
    (hrun : th.step S.sys r = some (th', s1)) :
    ReadInv file pos (S.after file (.run i r) (s1.setThread i th')) := by
  simp only [VfsThread.step, hproc, readDriver] at hrun
  obtain ⟨rfl, rfl⟩ := Prod.mk.inj (Option.some.inj hrun)
  have hgot : S.sys.got (.run i r) = if 0 < r then [(offset, r)] else [] := by
    rw [got_run hth, hproc]
    rfl
  by_cases hr : 0 < r
  · rw [if_pos hr] at hgot
    by_cases hcurrent : S.sys.Current file (.run i r)
    · have hwhere := hcurrent (offset, r) (by rw [hgot]; exact List.mem_cons_self)
      have hnone : pend = none := by
        cases pend with
        | none => rfl
        | some p =>
            obtain ⟨u, hu, hup⟩ := h.pending p rfl
            have := hwhere.2 p.1 u hu
            rw [hup.updating] at this
            cases this
      have hoff : offset = (S.sys.tables.files file).seekPosition := hwhere.1
      subst hnone hoff
      rw [hgot] at hfile
      refine Or.inl ⟨⟨hcur, hcurrent⟩, some (i, r), ?_⟩
      refine h.returned rfl rfl ?_ ?_ hsize (hfile _ List.mem_cons_self)
      · show S.ranges ++ S.sys.got _ = _
        rw [hgot]
      · rw [if_pos hr]
        exact ⟨hr, Or.inl rfl⟩
    · refine Or.inr ⟨fun hboth => hcurrent hboth.2, ?_⟩
      show ¬ (S.ranges ++ S.sys.got _).Pairwise RangesDisjoint
      rw [hgot]
      refine h.stale hlo hhi hr fun hwhere => hcurrent fun r' hr' => ?_
      rw [hgot, List.mem_singleton] at hr'
      rw [hr']
      exact hwhere
  · rw [if_neg hr] at hgot
    have hnot : th.proc.updating = false := by
      rw [hproc]
      rfl
    refine ReadFresh.quiet pend hcur hgot ?_
    refine h.replace rfl rfl rfl (Or.inl ?_) fun ret hp => absurd hp (h.not_pending hth hnot ret)
    rw [if_neg hr]
    trivial

theorem ReadFresh.updating {ret : ℤ} (h : ReadFresh file pos S (some (i, ret))) (hcur : S.current)
    (hth : S.sys.threads i = some th) (hup : Updating file ret th.proc)
    (hrun : th.step S.sys r = some (th', s1)) :
    ReadInv file pos (S.after file (.run i r) (s1.setThread i th')) := by
  have hgot : S.sys.got (.run i r) = [] := (got_run hth).trans hup.got
  rcases hup.2 with hproc | hproc
  · simp only [VfsThread.step, hproc] at hrun
    split at hrun
    case isFalse => cases hrun
    obtain ⟨rfl, rfl⟩ := Prod.mk.inj (Option.some.inj hrun)
    have hup' : Updating file ret (readUpdate file ret) := ⟨hup.1, Or.inr rfl⟩
    refine ReadFresh.quiet (some (i, ret)) hcur hgot ?_
    refine h.replace rfl rfl rfl (Or.inr (Or.inr ⟨ret, rfl, hup'⟩)) fun ret' hp => ?_
    rw [Option.some.injEq, Prod.mk.injEq] at hp
    rw [← hp.2]
    exact hup'
  · simp only [VfsThread.step, hproc, readUpdate] at hrun
    obtain ⟨rfl, rfl⟩ := Prod.mk.inj (Option.some.inj hrun)
    refine ReadFresh.quiet none hcur hgot ?_
    exact h.update rfl rfl rfl trivial hup.1

/-- A step keeps the invariant. -/
theorem ReadStep.keeps (hsize : fileSize ≤ intMax) {S' : ReadSystem ι} {a : VfsLabel ι}
    (hstep : ReadStep file fileSize S a S') (hinv : ReadInv file pos S) : ReadInv file pos S' := by
  obtain ⟨hread, hexec, hfile⟩ := hstep
  rcases hinv with ⟨hcur, pend, hfresh⟩ | ⟨hstale, hoverlap⟩
  · cases a with
    | deinit => exact hread.elim
    | call i c =>
        obtain ⟨buffer, bufsize, rfl⟩ := hread
        simp only [VfsSystem.exec] at hexec
        split at hexec
        case isFalse => cases hexec
        next hidle =>
        cases hexec
        exact hfresh.call hcur hidle buffer bufsize
    | run i r =>
        simp only [VfsSystem.exec] at hexec
        split at hexec
        case h_2 => cases hexec
        next th hth =>
        obtain ⟨⟨th', s1⟩, hrun, rfl⟩ := Option.map_eq_some_iff.1 hexec
        rcases hfresh.stages i th hth with hseek | ⟨fs, fileid, bufsize, offset, hproc, hlo, hhi⟩ |
          ⟨ret, rfl, hup⟩
        · exact hfresh.seeking hcur hth hseek hrun
        · exact hfresh.driver hcur hsize hth hproc hlo hhi hfile hrun
        · exact hfresh.updating hcur hth hup hrun
  · refine Or.inr ⟨fun hboth => hstale hboth.1, fun hpair => hoverlap ?_⟩
    exact (List.pairwise_append.1 hpair).1

end

/-- **Reads through one handle.** When all calls of a run have returned, the ranges of bytes that they
returned have no byte in common and cover what is between the first and the last seek position, if and
only if each driver call that returned bytes read them at the position that the row had when it
returned, with no other call about to move it. -/
theorem readReachable_iff {file fileSize pos : ℤ} (hsize : fileSize ≤ intMax) {S : ReadSystem ι}
    (h : Reach (ReadInit file pos) (ReadStep file fileSize) S)
    (hdone : ∀ i, S.sys.idle i = true) :
    (S.ranges.Pairwise RangesDisjoint ∧ pos ≤ (S.sys.tables.files file).seekPosition ∧
      ∀ x, (∃ r ∈ S.ranges, r.1 ≤ x ∧ x < r.1 + r.2) ↔
        pos ≤ x ∧ x < (S.sys.tables.files file).seekPosition) ↔ S.current := by
  have hinv : ReadInv file pos S :=
    h.invariant (fun S hS => readInit_inv hS) fun S a S' hS hstep => hstep.keeps hsize hS
  rcases hinv with ⟨hcur, pend, hfresh⟩ | ⟨hstale, hoverlap⟩
  · refine ⟨fun _ => hcur, fun _ => ?_⟩
    have hnone : pend = none := by
      cases pend with
      | none => rfl
      | some p =>
          obtain ⟨u, hu, hup⟩ := hfresh.pending p rfl
          have hidle := hdone p.1
          unfold VfsSystem.idle at hidle
          rw [show S.sys.threads p.1 = some u from hu, Option.all_some] at hidle
          rcases hup.2 with hproc | hproc
          all_goals
            rw [hproc] at hidle
            cases hidle
    subst hnone
    have hranges := hfresh.ranges
    rw [show owed (none : Option (ι × ℤ)) = 0 from rfl, add_zero] at hranges
    exact ⟨hranges.pairwise, hfresh.moved, hranges.mem_iff⟩
  · exact ⟨fun hprop => absurd hprop.1 hoverlap, fun hcur => absurd hcur hstale⟩

/-! ## Two runs -/

/-- A step with the ranges that have been returned. -/
def readExec (fileSize : ℤ) (p : VfsSystem ι × List (ℤ × ℤ)) (a : VfsLabel ι) :
    Option (VfsSystem ι × List (ℤ × ℤ)) :=
  if ∀ r ∈ p.1.got a, r.1 + r.2 ≤ fileSize then
    (p.1.exec a).map fun s => (s, p.2 ++ p.1.got a)
  else none

theorem reach_of_readExec {file fileSize pos : ℤ} {S : ReadSystem ι}
    (h : Reach (ReadInit file pos) (ReadStep file fileSize) S) {labels : List (VfsLabel ι)}
    {p : VfsSystem ι × List (ℤ × ℤ)} (hread : ∀ a ∈ labels, a.IsRead file)
    (hrun : runOps (readExec fileSize) (S.sys, S.ranges) labels = some p) :
    ∃ S' : ReadSystem ι, Reach (ReadInit file pos) (ReadStep file fileSize) S' ∧
      S'.sys = p.1 ∧ S'.ranges = p.2 := by
  induction labels generalizing S with
  | nil =>
      cases hrun
      exact ⟨S, h, rfl, rfl⟩
  | cons a labels ih =>
      unfold runOps at hrun
      split at hrun
      case h_2 => cases hrun
      next p' hstep =>
      unfold readExec at hstep
      split at hstep
      case isFalse => cases hstep
      next hfile =>
      obtain ⟨s, hexec, rfl⟩ := Option.map_eq_some_iff.1 hstep
      exact ih (h.step a (.mk (hread a List.mem_cons_self) hexec hfile))
        (fun b hb => hread b (List.mem_cons_of_mem _ hb)) hrun

/-- A file is open through the handle 0. -/
def oneOpenFile : VfsSystem Bool :=
  { vfsInit with tables := ⟨fun _ => ⟨none, []⟩, fun _ => ⟨some 0, 3, 0⟩⟩ }

theorem oneOpenFile_init : ReadInit 0 0 (⟨oneOpenFile, [], True⟩ : ReadSystem Bool) where
  isOpen := ⟨le_refl _, by decide, by decide⟩
  seekPosition := rfl
  isInt := by decide
  idle _ := rfl
  ranges := rfl
  current := trivial

/-- The steps of a read of one byte by the thread `i`, up to its driver call and from there on. -/
def readBegin (i : Bool) : List (VfsLabel Bool) :=
  .call i (.read 0 1 1) :: List.replicate 4 (.run i 0)

def readFinish (i : Bool) : List (VfsLabel Bool) :=
  .run i 1 :: List.replicate 4 (.run i 0)

theorem readBegin_isRead (i : Bool) : ∀ a ∈ readBegin i, a.IsRead 0 := by
  intro a ha
  rcases List.mem_cons.1 ha with rfl | ha
  · exact ⟨1, 1, rfl⟩
  · rw [List.eq_of_mem_replicate ha]
    trivial

theorem readFinish_isRead (i : Bool) : ∀ a ∈ readFinish i, a.IsRead 0 := by
  intro a ha
  rcases List.mem_cons.1 ha with rfl | ha
  · trivial
  · rw [List.eq_of_mem_replicate ha]
    trivial

/-- The first thread reads a byte, then the second one. -/
def readsInTurn : VfsSystem Bool × List (ℤ × ℤ) :=
  (runOps (readExec 2) (oneOpenFile, []) (readBegin false ++ readFinish false ++ readBegin true ++
    readFinish true)).get (by decide +kernel)

/-- Both threads take the position of the row before one of them moves it. -/
def readsAtOnce : VfsSystem Bool × List (ℤ × ℤ) :=
  (runOps (readExec 2) (oneOpenFile, []) (readBegin false ++ readBegin true ++ readFinish false ++
    readFinish true)).get (by decide +kernel)

/-- One after the other the threads get the two bytes of the file. -/
theorem readReachable_iff_inTurn :
    ∃ S : ReadSystem Bool, Reach (ReadInit 0 0) (ReadStep 0 2) S ∧
      S.ranges = [(0, 1), (1, 1)] ∧ S.current := by
  obtain ⟨S, hreach, hsys, hranges⟩ := reach_of_readExec (.init oneOpenFile_init)
    (p := readsInTurn)
    (by
      simp only [List.forall_mem_append]
      exact ⟨⟨⟨readBegin_isRead false, readFinish_isRead false⟩, readBegin_isRead true⟩, readFinish_isRead true⟩)
    (Option.some_get (by decide +kernel)).symm
  have htwo : readsInTurn.2 = [(0, 1), (1, 1)] := by decide +kernel
  have hpos : (readsInTurn.1.tables.files 0).seekPosition = 2 := by decide +kernel
  have hidle : ∀ i, readsInTurn.1.idle i = true := by decide +kernel
  rw [htwo] at hranges
  refine ⟨S, hreach, hranges, ?_⟩
  rw [← readReachable_iff (by decide) hreach (by rw [hsys]; exact hidle), hranges, hsys, hpos]
  have hcons : Consecutive [(0, 1), (1, 1)] 0 2 := by
    refine ⟨rfl, by decide, rfl, by decide, rfl⟩
  exact ⟨hcons.pairwise, by decide, hcons.mem_iff⟩

/-- Both threads get the first byte of the file, and the position is behind the second one. -/
theorem readsAtOnce_overlap :
    ∃ S : ReadSystem Bool, Reach (ReadInit 0 0) (ReadStep 0 2) S ∧
      (∀ i, S.sys.idle i = true) ∧ S.ranges = [(0, 1), (0, 1)] ∧
      (S.sys.tables.files 0).seekPosition = 2 ∧ ¬ S.ranges.Pairwise RangesDisjoint := by
  obtain ⟨S, hreach, hsys, hranges⟩ := reach_of_readExec (.init oneOpenFile_init)
    (p := readsAtOnce)
    (by
      simp only [List.forall_mem_append]
      exact ⟨⟨⟨readBegin_isRead false, readBegin_isRead true⟩, readFinish_isRead false⟩, readFinish_isRead true⟩)
    (Option.some_get (by decide +kernel)).symm
  have htwo : readsAtOnce.2 = [(0, 1), (0, 1)] := by decide +kernel
  have hpos : (readsAtOnce.1.tables.files 0).seekPosition = 2 := by decide +kernel
  have hidle : ∀ i, readsAtOnce.1.idle i = true := by decide +kernel
  rw [htwo] at hranges
  refine ⟨S, hreach, by rw [hsys]; exact hidle, hranges, by rw [hsys]; exact hpos, ?_⟩
  rw [hranges]
  intro hpair
  have hfirst := (List.pairwise_cons.1 hpair).1 (0, 1) List.mem_cons_self
  unfold RangesDisjoint at hfirst
  simp only at hfirst
  omega

end Kudos
