import Kudos.Fs.VfsControl

set_option autoImplicit false

/-! # Handles of open files

Threads open files and close the handles they have got. The row of a handle is reserved by `vfs_open`
with both tables locked, filled when the driver has returned and no lock is held, and given back under
one of the locks if the driver fails. Beside the system it is recorded which rows are being opened
and by whom, what the driver answered in the call of a thread, and which handles a thread holds
(`OpenSystem`); `openReachable_law` says that handles are exclusive. -/

namespace Kudos

open Transition

variable {ι : Type} [DecidableEq ι]

/-! ## Runs -/

/-- The VFS with a record of what has happened. A row is being opened from the moment at which `vfs_open`
puts a filesystem into it to its return. A handle is held from the return of `vfs_open` to the moment at
which `vfs_close` clears its row; it is recorded with the filesystem and the file id that the driver
gave to its `vfs_open`. -/
structure OpenSystem (ι : Type) where
  sys : VfsSystem ι
  opening : ℤ → Option ι
  /-- The filesystem whose driver the call has asked to open a file, and the answer. -/
  answer : ι → Option (ℕ × ℤ)
  held : ι → List (ℤ × Option (ℕ × ℤ))
  /-- At some moment of the call all rows were held or being opened. -/
  full : ι → Prop

/-- What the driver answers in the step if it is asked to open a file. -/
def VfsProc.answered (r : ℤ) : VfsProc ℤ → Option (ℕ × ℤ)
  | driver (.open fs _) _ => some (fs, r)
  | _ => none

namespace OpenSystem

/-- The row is held or being opened. -/
def Taken (S : OpenSystem ι) (file : ℤ) : Prop :=
  (∃ i, S.opening file = some i) ∨ ∃ i, ∃ p ∈ S.held i, p.1 = file

def AllTaken (S : OpenSystem ι) : Prop := ∀ file : ℕ, file < configMaxOpenFiles → S.Taken file

/-- The handles of a thread after a step. -/
def heldAfter (S : OpenSystem ι) (i : ι) (th th' : VfsThread) : List (ℤ × Option (ℕ × ℤ)) :=
  match th.call with
  | .open _ =>
      match th'.proc.result with
      | some ret => if 0 ≤ ret then (ret, S.answer i) :: S.held i else S.held i
      | none => S.held i
  | .close handle => if th.proc.storing then (S.held i).filter (·.1 ≠ handle) else S.held i
  | _ => S.held i

/-- The record after a step of the call of a thread. -/
def after (S : OpenSystem ι) (i : ι) (r : ℤ) (th th' : VfsThread) (sys : VfsSystem ι) :
    OpenSystem ι where
  sys := sys
  opening := openingAfter S.opening S.sys.tables i th' sys.tables
  answer := Function.update S.answer i ((th.proc.answered r).or (S.answer i))
  held := Function.update S.held i (S.heldAfter i th th')
  full := Function.update S.full i (S.full i ∨ S.AllTaken)

/-- The next state, if the step is possible. -/
def exec (S : OpenSystem ι) : VfsLabel ι → Option (OpenSystem ι)
  | .call i c => (S.sys.exec (.call i c)).map fun sys =>
      { S with sys, answer := Function.update S.answer i none, full := Function.update S.full i False }
  | .run i r =>
      match S.sys.threads i with
      | some th => (th.step S.sys r).map fun p => S.after i r th p.1 (p.2.setThread i p.1)
      | none => none
  | .deinit => none

/-- Threads open files and close the handles that they hold. -/
def Allowed (S : OpenSystem ι) : VfsLabel ι → Prop
  | .call i c => (∃ pathname, c = .open pathname) ∨ ∃ p ∈ S.held i, c = .close p.1
  | .run _ _ => True
  | .deinit => False

end OpenSystem

/-- No file is open, and no call is going on. Any filesystems may be mounted. -/
structure OpenInit (S : OpenSystem ι) : Prop where
  files : ∀ file : ℕ, file < configMaxOpenFiles → (S.sys.tables.files file).filesystem = none
  sem : ∀ sem, S.sys.sem sem = 1
  threads : ∀ i, S.sys.threads i = none
  opening : ∀ file, S.opening file = none
  held : ∀ i, S.held i = []

abbrev OpenReachable : OpenSystem ι → Prop :=
  Reach OpenInit fun S a S' => S.Allowed a ∧ S.exec a = some S'

/-! ## What a call knows -/

def VfsCall.Opens (c : VfsCall) : Prop := ∃ pathname, c = .open pathname

/-- The row that the call has reserved. -/
def VfsPc.row : VfsPc → Option ℤ
  | openUnlockFiles file _ _ | openUnlockTable file _ _ | openDriver file _ _ | openUndo file _
  | openClear file _ | openFileid file _ | openSeek file | openReturn file => some file
  | _ => none

namespace OpenSystem

/-- There is a reason to return `VFS_LIMIT`. -/
def Refused (S : OpenSystem ι) (i : ι) : Prop :=
  S.full i ∨ ∃ fs, S.answer i = some (fs, vfsLimit)

/-- The call has reserved the row. -/
structure Reserved (S : OpenSystem ι) (i : ι) (c : VfsCall) (file : ℤ) : Prop where
  opens : c.Opens
  opening : S.opening file = some i
  inTable : InTable file

/-- What is known at a control point of the call `c`. -/
def At (S : OpenSystem ι) (i : ι) (c : VfsCall) : VfsPc → Prop
  | .panic => True
  | .returned ret => c.Opens → ret = vfsLimit → S.Refused i
  | .leave _ ret => c.Opens → ret < 0 ∧ (ret = vfsLimit → S.Refused i)
  | .openStart _ | .openTable _ _ | .openFiles _ _ | .openScan _ _ => c.Opens
  | .openReserve file _ _ =>
      c.Opens ∧ InTable file ∧ (S.sys.tables.files file).filesystem = none
  | .openUnlockFiles file fs _ | .openUnlockTable file fs _ | .openDriver file fs _ =>
      S.Reserved i c file ∧ (S.sys.tables.files file).filesystem = some fs
  | .openUndo file ret | .openClear file ret =>
      S.Reserved i c file ∧ ret < 0 ∧ (ret = vfsLimit → S.Refused i)
  | .openFileid file fileid => S.Reserved i c file ∧
      ∃ fs, (S.sys.tables.files file).filesystem = some fs ∧ S.answer i = some (fs, fileid)
  | .openSeek file => S.Reserved i c file ∧
      ∃ fs, (S.sys.tables.files file).filesystem = some fs ∧
        S.answer i = some (fs, (S.sys.tables.files file).fileid)
  | .openReturn file => S.Reserved i c file ∧
      ∃ fs fileid, S.sys.tables.files file = ⟨some fs, fileid, 0⟩ ∧ S.answer i = some (fs, fileid)
  | .closeStart file | .closeLock file | .closeVerify file | .closeLoad file
  | .closeDriver file _ _ | .closeClear file _ => c = .close file ∧ ∃ p ∈ S.held i, p.1 = file
  | .closeRefuse => ¬ c.Opens
  | _ => False

variable {S S' : OpenSystem ι} {i j : ι} {c : VfsCall} {pc : VfsPc}

omit [DecidableEq ι] in
theorem Reserved.congr {file : ℤ} (h : S.Reserved i c file)
    (hopening : S.opening file = some i → S'.opening file = some i) : S'.Reserved i c file :=
  ⟨h.opens, hopening h.opening, h.inTable⟩

omit [DecidableEq ι] in
/-- What is known stays known if others leave alone what it is about. -/
theorem At.frame (h : S.At j c pc)
    (hopening : ∀ file, S.opening file = some j →
      S'.opening file = some j ∧ S'.sys.tables.files file = S.sys.tables.files file)
    (hfree : ∀ file fs filename, pc = .openReserve file fs filename →
      (S.sys.tables.files file).filesystem = none → (S'.sys.tables.files file).filesystem = none)
    (hrefused : S.Refused j → S'.Refused j) (hanswer : S'.answer j = S.answer j)
    (hheld : S'.held j = S.held j) : S'.At j c pc := by
  cases pc with
  | panic => trivial
  | returned ret => exact fun hc hret => hrefused (h hc hret)
  | leave sems ret => exact fun hc => ⟨(h hc).1, fun hret => hrefused ((h hc).2 hret)⟩
  | openStart _ | openTable _ _ | openFiles _ _ | openScan _ _ | closeRefuse => exact h
  | openReserve file fs filename => exact ⟨h.1, h.2.1, hfree file fs filename rfl h.2.2⟩
  | openUnlockFiles file fs _ | openUnlockTable file fs _ | openDriver file fs _ =>
      obtain ⟨hres, hfs⟩ := h
      have hsame := hopening file hres.opening
      exact ⟨hres.congr fun _ => hsame.1, by rw [hsame.2]; exact hfs⟩
  | openUndo file ret | openClear file ret =>
      obtain ⟨hres, hret, hlimit⟩ := h
      have hsame := hopening file hres.opening
      exact ⟨hres.congr fun _ => hsame.1, hret, fun heq => hrefused (hlimit heq)⟩
  | openFileid file fileid =>
      obtain ⟨hres, fs, hfs, hans⟩ := h
      have hsame := hopening file hres.opening
      refine ⟨hres.congr fun _ => hsame.1, fs, ?_, ?_⟩
      · rw [hsame.2]
        exact hfs
      · rw [hanswer]
        exact hans
  | openSeek file =>
      obtain ⟨hres, fs, hfs, hans⟩ := h
      have hsame := hopening file hres.opening
      refine ⟨hres.congr fun _ => hsame.1, fs, ?_, ?_⟩
      · rw [hsame.2]
        exact hfs
      · rw [hanswer, hsame.2]
        exact hans
  | openReturn file =>
      obtain ⟨hres, fs, fileid, hrow, hans⟩ := h
      have hsame := hopening file hres.opening
      refine ⟨hres.congr fun _ => hsame.1, fs, fileid, ?_, ?_⟩
      · rw [hsame.2]
        exact hrow
      · rw [hanswer]
        exact hans
  | closeStart file | closeLock file | closeVerify file | closeLoad file | closeDriver file _ _
  | closeClear file _ =>
      obtain ⟨hc, p, hp, heq⟩ := h
      exact ⟨hc, p, by rw [hheld]; exact hp, heq⟩
  | _ => exact h.elim

end OpenSystem

/-! ## The invariant -/

/-- A handle of a thread: its row has what its `vfs_open` got from the driver. -/
def OpenSystem.HoldsHandle (S : OpenSystem ι) (p : ℤ × Option (ℕ × ℤ)) : Prop :=
  S.opening p.1 = none ∧ InTable p.1 ∧
    ∃ fs fileid, p.2 = some (fs, fileid) ∧ S.sys.tables.files p.1 = ⟨some fs, fileid, 0⟩

structure OpenInv (S : OpenSystem ι) (pcs : ι → VfsPc) : Prop where
  follows : Follows S.sys pcs
  point : ∀ i, ∀ th ∈ S.sys.threads i, S.At i th.call (pcs i)
  opening : ∀ file i, S.opening file = some i → (S.sys.tables.files file).filesystem ≠ none ∧
    (∃ th ∈ S.sys.threads i, th.call.Opens) ∧ ((pcs i).row = some file ∨ pcs i = .panic)
  used : ∀ file : ℕ, file < configMaxOpenFiles →
    (S.sys.tables.files file).filesystem ≠ none → S.Taken file
  held : ∀ i, ∀ p ∈ S.held i, S.HoldsHandle p
  exclusive : ∀ i j, ∀ p ∈ S.held i, ∀ q ∈ S.held j, p.1 = q.1 → i = j

omit [DecidableEq ι] in
theorem openInit_inv {S : OpenSystem ι} (h : OpenInit S) : OpenInv S fun _ => .returned 0 where
  follows :=
    { thread := fun i th hth => by
        rw [h.threads] at hth
        cases hth
      idle := fun _ _ => ⟨0, rfl⟩
      wf := fun _ => trivial
      locked := fun sem => ⟨fun _ _ hholds => hholds.elim, fun _ hholds => hholds.elim,
        le_of_eq (h.sem sem)⟩ }
  point := fun i th hth => by
    rw [h.threads] at hth
    cases hth
  opening := fun file i hopening => by
    rw [h.opening] at hopening
    cases hopening
  used := fun file hlt hne => absurd (h.files file hlt) hne
  held := fun i p hp => by
    rw [h.held] at hp
    cases hp
  exclusive := fun i j p hp => by
    rw [h.held] at hp
    cases hp

section

variable {S : OpenSystem ι} {pcs : ι → VfsPc} {i j : ι} {r : ℤ} {th th' : VfsThread}
  {sys : VfsSystem ι} {pc' : VfsPc} {file : ℤ}

omit [DecidableEq ι] in
/-- The row of a handle is in use. -/
theorem OpenSystem.HoldsHandle.used {p : ℤ × Option (ℕ × ℤ)} (h : S.HoldsHandle p) :
    (S.sys.tables.files p.1).filesystem ≠ none := by
  obtain ⟨-, -, fs, fileid, -, hrow⟩ := h
  rw [hrow]
  exact Option.some_ne_none fs

/-- A handle whose row stays as it is. -/
theorem OpenSystem.HoldsHandle.after {p : ℤ × Option (ℕ × ℤ)} (h : S.HoldsHandle p)
    (hsame : sys.tables.files p.1 = S.sys.tables.files p.1) :
    (S.after i r th th' sys).HoldsHandle p := by
  have hused := h.used
  obtain ⟨hopening, hin, fs, fileid, hp, hrow⟩ := h
  refine ⟨?_, hin, fs, fileid, hp, ?_⟩
  · have hafter : openingAfter S.opening S.sys.tables i th' sys.tables p.1 = S.opening p.1 := by
      refine openingAfter_of_same (by rw [hsame]) hused fun _ => ?_
      rw [hopening]
      exact fun hsome => Option.some_ne_none i hsome.symm
    exact hafter.trans hopening
  · exact hsame.trans hrow

theorem after_held_self : (S.after i r th th' sys).held i = S.heldAfter i th th' :=
  Function.update_self ..

theorem after_held_of_ne (hj : j ≠ i) : (S.after i r th th' sys).held j = S.held j :=
  Function.update_of_ne hj ..

theorem after_refused_of_ne (hj : j ≠ i) (h : S.Refused j) :
    (S.after i r th th' sys).Refused j := by
  rcases h with hfull | ⟨fs, hans⟩
  · left
    show Function.update S.full i _ j
    rw [Function.update_of_ne hj]
    exact hfull
  · exact Or.inr ⟨fs, (Function.update_of_ne hj ..).trans hans⟩

/-- The invariant after a step of one thread, put together from what the step does to the rows. -/
theorem OpenInv.after (h : OpenInv S pcs) (hth : S.sys.threads i = some th)
    (hcall : th'.call = th.call)
    (hthreads : sys.threads = Function.update S.sys.threads i (some th'))
    (hfollows : Follows sys (Function.update pcs i pc'))
    (hpoint : (S.after i r th th' sys).At i th.call pc')
    (hrows : ∀ file, ∀ j ≠ i, S.opening file = some j →
      sys.tables.files file = S.sys.tables.files file)
    (hfree : ∀ j ≠ i, ∀ file fs filename, pcs j = .openReserve file fs filename →
      (S.sys.tables.files file).filesystem = none → (sys.tables.files file).filesystem = none)
    (hmine : ∀ file, openingAfter S.opening S.sys.tables i th' sys.tables file = some i →
      th.call.Opens ∧ (pc'.row = some file ∨ pc' = .panic))
    (hused : ∀ file : ℕ, file < configMaxOpenFiles →
      (sys.tables.files file).filesystem ≠ none → (S.after i r th th' sys).Taken file)
    (hheld : ∀ p ∈ S.heldAfter i th th', (S.after i r th th' sys).HoldsHandle p)
    (hkept : ∀ j ≠ i, ∀ p ∈ S.held j, sys.tables.files p.1 = S.sys.tables.files p.1)
    (hexcl : ∀ p ∈ S.heldAfter i th th', ∀ j ≠ i, ∀ q ∈ S.held j, p.1 ≠ q.1) :
    OpenInv (S.after i r th th' sys) (Function.update pcs i pc') := by
  have hthread : sys.threads i = some th' := by
    rw [hthreads, Function.update_self]
  have hother : ∀ j ≠ i, sys.threads j = S.sys.threads j := by
    intro j hj
    rw [hthreads, Function.update_of_ne hj]
  refine ⟨hfollows, fun j u hu => ?_, fun file j hopening => ?_, hused, fun j p hp => ?_, ?_⟩
  · by_cases hj : j = i
    · subst hj
      have heq : th' = u := Option.some.inj (hthread.symm.trans hu)
      rw [Function.update_self, ← heq, hcall]
      exact hpoint
    · rw [Function.update_of_ne hj]
      have hold := h.point j u ((hother j hj).symm.trans hu)
      refine hold.frame (fun file hopening => ?_) (hfree j hj) ?_ ?_ ?_
      · have hsame := hrows file j hj hopening
        refine ⟨?_, hsame⟩
        rw [← hopening]
        refine openingAfter_of_same (by rw [hsame]) (h.opening file j hopening).1 fun _ => ?_
        rw [hopening]
        exact fun heq => hj (Option.some.inj heq)
      · exact after_refused_of_ne hj
      · exact Function.update_of_ne hj ..
      · exact after_held_of_ne hj
  · refine ⟨openingAfter_used hopening, ?_⟩
    by_cases hj : j = i
    · subst hj
      obtain ⟨hopens, hrow⟩ := hmine file hopening
      rw [Function.update_self]
      exact ⟨⟨th', hthread, by rw [hcall]; exact hopens⟩, hrow⟩
    · obtain ⟨-, ⟨u, hu, hopens⟩, hrow⟩ := h.opening file j (openingAfter_of_ne hj hopening)
      rw [Function.update_of_ne hj]
      exact ⟨⟨u, (hother j hj).trans hu, hopens⟩, hrow⟩
  · by_cases hj : j = i
    · subst hj
      rw [after_held_self] at hp
      exact hheld p hp
    · rw [after_held_of_ne hj] at hp
      exact (h.held j p hp).after (hkept j hj p hp)
  · intro j k p hp q hq heq
    by_cases hj : j = i
    · by_cases hk : k = i
      · exact hj.trans hk.symm
      · rw [hj, after_held_self] at hp
        rw [after_held_of_ne hk] at hq
        exact absurd heq (hexcl p hp k hk q hq)
    · rw [after_held_of_ne hj] at hp
      by_cases hk : k = i
      · rw [hk, after_held_self] at hq
        exact absurd heq.symm (hexcl q hq j hj p hp)
      · rw [after_held_of_ne hk] at hq
        exact h.exclusive j k p hp q hq heq

end

omit [DecidableEq ι] in
/-- A row that is not in use is not being opened. -/
theorem OpenInv.opening_of_free {S : OpenSystem ι} {pcs : ι → VfsPc} {file : ℤ} (h : OpenInv S pcs)
    (hnone : (S.sys.tables.files file).filesystem = none) : S.opening file = none := by
  cases hfile : S.opening file with
  | none => rfl
  | some j => exact absurd hnone (h.opening file j hfile).1

/-! ## Steps -/

/-- What is known when the thread `i` takes a step of its call. -/
structure OpenRun (S : OpenSystem ι) (pcs : ι → VfsPc) (i : ι) (r : ℤ) (th th' : VfsThread)
    (sys : VfsSystem ι) (pc' : VfsPc) : Prop where
  inv : OpenInv S pcs
  thread : S.sys.threads i = some th
  proc : th.proc = (pcs i).proc
  proc' : th'.proc = pc'.proc
  call : th'.call = th.call
  threads : sys.threads = Function.update S.sys.threads i (some th')
  follows : Follows sys (Function.update pcs i pc')
  point : S.At i th.call (pcs i)

section

variable {S : OpenSystem ι} {pcs : ι → VfsPc} {i j : ι} {r : ℤ} {th th' : VfsThread}
  {sys : VfsSystem ι} {pc' : VfsPc} {file : ℤ}

/-- The row of the call is the only one that it has reserved. -/
theorem OpenRun.row (h : OpenRun S pcs i r th th' sys pc') (hpanic : pcs i ≠ .panic)
    (hopening : S.opening file = some i) : (pcs i).row = some file :=
  (h.inv.opening file i hopening).2.2.resolve_right hpanic

theorem after_answer (hans : th.proc.answered r = none) :
    (S.after i r th th' sys).answer i = S.answer i := by
  show Function.update S.answer i _ i = _
  rw [Function.update_self, hans]
  rfl

/-- There is still a reason to return `VFS_LIMIT`. -/
theorem after_refused (hans : th.proc.answered r = none) (hrefused : S.Refused i) :
    (S.after i r th th' sys).Refused i := by
  rcases hrefused with hfull | ⟨fs, hfs⟩
  · left
    show Function.update S.full i _ i
    rw [Function.update_self]
    exact Or.inl hfull
  · exact Or.inr ⟨fs, (after_answer hans).trans hfs⟩

/-- A step that leaves the tables alone and does not return. -/
theorem OpenRun.opening_eq (h : OpenRun S pcs i r th th' sys pc')
    (htables : sys.tables = S.sys.tables)
    (hret : th'.proc.returned = true → ∀ file, S.opening file ≠ some i) :
    (S.after i r th th' sys).opening = S.opening := by
  funext file
  show openingAfter S.opening S.sys.tables i th' sys.tables file = _
  by_cases hnone : (S.sys.tables.files file).filesystem = none
  · unfold openingAfter
    rw [htables, if_pos hnone, h.inv.opening_of_free hnone]
  · exact openingAfter_of_same (by rw [htables]) hnone fun hdone => hret hdone file

/-- A step that has nothing to do with the rows. -/
theorem OpenRun.quiet (h : OpenRun S pcs i r th th' sys pc')
    (htables : sys.tables = S.sys.tables) (hheld : S.heldAfter i th th' = S.held i)
    (hret : th'.proc.returned = true → ∀ file, S.opening file ≠ some i)
    (hrow : ∀ file, S.opening file = some i → pc'.row = some file ∨ pc' = .panic)
    (hpoint : (S.after i r th th' sys).At i th.call pc') :
    OpenInv (S.after i r th th' sys) (Function.update pcs i pc') := by
  have hopening := h.opening_eq htables hret
  have hopening' : ∀ file, openingAfter S.opening S.sys.tables i th' sys.tables file = S.opening file :=
    fun file => congrFun hopening file
  refine h.inv.after h.thread h.call h.threads h.follows hpoint ?_ ?_ ?_ ?_ ?_ ?_ ?_
  · intro file j _ _
    rw [htables]
  · intro j _ file fs filename _ hnone
    rw [htables]
    exact hnone
  · intro file hfile
    rw [hopening'] at hfile
    obtain ⟨-, ⟨u, hu, hopens⟩, -⟩ := h.inv.opening file i hfile
    have heq : u = th := Option.some.inj ((show S.sys.threads i = some u from hu).symm.trans h.thread)
    rw [heq] at hopens
    exact ⟨hopens, hrow file hfile⟩
  · intro file hlt hne
    rw [htables] at hne
    rcases h.inv.used file hlt hne with ⟨j, hj⟩ | ⟨j, p, hp, heq⟩
    · exact Or.inl ⟨j, (hopening' file).trans hj⟩
    · refine Or.inr ⟨j, p, ?_, heq⟩
      by_cases hj : j = i
      · rw [hj, after_held_self, hheld, ← hj]
        exact hp
      · rw [after_held_of_ne hj]
        exact hp
  · intro p hp
    rw [hheld] at hp
    exact (h.inv.held i p hp).after (by rw [htables])
  · intro j _ p _
    rw [htables]
  · intro p hp j hj q hq heq
    rw [hheld] at hp
    exact hj (h.inv.exclusive i j p hp q hq heq).symm

/-- The knowledge of the next control point does not depend on what the step has changed. -/
theorem OpenRun.at_of_quiet (h : OpenRun S pcs i r th th' sys pc')
    (htables : sys.tables = S.sys.tables) (hheld : S.heldAfter i th th' = S.held i)
    (hret : th'.proc.returned = true → ∀ file, S.opening file ≠ some i)
    (hans : th.proc.answered r = none) (hpoint : S.At i th.call pc') :
    (S.after i r th th' sys).At i th.call pc' := by
  refine hpoint.frame (fun file hfile => ⟨?_, ?_⟩) ?_ (after_refused hans) (after_answer hans) ?_
  · rw [h.opening_eq htables hret]
    exact hfile
  · show sys.tables.files file = _
    rw [htables]
  · intro file fs filename _ hnone
    show (sys.tables.files file).filesystem = none
    rw [htables]
    exact hnone
  · exact after_held_self.trans hheld

end

section

variable {S : OpenSystem ι} {pcs : ι → VfsPc} {i j : ι} {r : ℤ} {th th' : VfsThread}
  {sys : VfsSystem ι} {pc' : VfsPc} {file : ℤ} {e : OpenfileEntry}

/-- Other rows than the one that is written are being opened as before. -/
theorem OpenRun.opening_of_ne (h : OpenRun S pcs i r th th' sys pc')
    (htables : sys.tables = S.sys.tables.setFile file e) (hret : th'.proc.returned = false)
    {file' : ℤ} (hne : file' ≠ file) :
    openingAfter S.opening S.sys.tables i th' sys.tables file' = S.opening file' := by
  have hsame : sys.tables.files file' = S.sys.tables.files file' := by
    rw [htables]
    exact VfsTables.setFile_files_of_ne _ hne e
  by_cases hnone : (S.sys.tables.files file').filesystem = none
  · unfold openingAfter
    rw [hsame, if_pos hnone, h.inv.opening_of_free hnone]
  · refine openingAfter_of_same (by rw [hsame]) hnone fun hdone => ?_
    rw [hret] at hdone
    cases hdone

/-- A step that writes one row, which no other call has reserved and no other thread holds. -/
theorem OpenRun.write (h : OpenRun S pcs i r th th' sys pc')
    (htables : sys.tables = S.sys.tables.setFile file e) (hret : th'.proc.returned = false)
    (hmine : S.opening file = some i ∨ S.opening file = none)
    (hfree : ∀ j ≠ i, ∀ fs filename, pcs j = .openReserve file fs filename →
      (S.sys.tables.files file).filesystem = none → e.filesystem = none)
    (honly : ∀ file', S.opening file' = some i → file' = file)
    (hrow : openingAfter S.opening S.sys.tables i th' sys.tables file = some i → th.call.Opens ∧ pc'.row = some file)
    (hused : e.filesystem ≠ none → (S.after i r th th' sys).Taken file)
    (hheld : ∀ p, p ∈ S.heldAfter i th th' ↔ p ∈ S.held i ∧ p.1 ≠ file)
    (hother : ∀ j ≠ i, ∀ p ∈ S.held j, p.1 ≠ file)
    (hpoint : (S.after i r th th' sys).At i th.call pc') :
    OpenInv (S.after i r th th' sys) (Function.update pcs i pc') := by
  have hsame : ∀ file' ≠ file, sys.tables.files file' = S.sys.tables.files file' := by
    intro file' hne
    rw [htables]
    exact VfsTables.setFile_files_of_ne _ hne e
  have hself : sys.tables.files file = e := by
    rw [htables]
    exact VfsTables.setFile_files_self ..
  have hopening : ∀ file' ≠ file, openingAfter S.opening S.sys.tables i th' sys.tables file' = S.opening file' :=
    fun file' hne => h.opening_of_ne htables hret hne
  refine h.inv.after h.thread h.call h.threads h.follows hpoint ?_ ?_ ?_ ?_ ?_ ?_ ?_
  · intro file' j hj hfile'
    refine hsame file' fun heq => ?_
    rw [heq] at hfile'
    rcases hmine with hmine | hmine
    · exact hj (Option.some.inj (hfile'.symm.trans hmine))
    · cases hfile'.symm.trans hmine
  · intro j hj file' fs filename hpc hnone
    by_cases hfile : file' = file
    · subst hfile
      rw [hself]
      exact hfree j hj fs filename hpc hnone
    · rw [hsame file' hfile]
      exact hnone
  · intro file' hfile'
    by_cases hfile : file' = file
    · subst hfile
      exact ⟨(hrow hfile').1, Or.inl (hrow hfile').2⟩
    · rw [hopening file' hfile] at hfile'
      exact absurd (honly file' hfile') hfile
  · intro file' hlt hne
    by_cases hfile : (file' : ℤ) = file
    · rw [hfile] at hne ⊢
      rw [hself] at hne
      exact hused hne
    · rw [hsame _ hfile] at hne
      rcases h.inv.used file' hlt hne with ⟨j, hj⟩ | ⟨j, p, hp, heq⟩
      · exact Or.inl ⟨j, (hopening _ hfile).trans hj⟩
      · refine Or.inr ⟨j, p, ?_, heq⟩
        by_cases hj : j = i
        · subst hj
          rw [after_held_self, hheld]
          exact ⟨hp, by rw [heq]; exact hfile⟩
        · rw [after_held_of_ne hj]
          exact hp
  · intro p hp
    obtain ⟨hp, hne⟩ := (hheld p).1 hp
    exact (h.inv.held i p hp).after (hsame p.1 hne)
  · intro j hj p hp
    exact hsame p.1 (hother j hj p hp)
  · intro p hp j hj q hq heq
    exact hj (h.inv.exclusive i j p ((hheld p).1 hp).1 q hq heq).symm

omit [DecidableEq ι] in
/-- No handle is a row that is being opened. -/
theorem OpenInv.held_ne (h : OpenInv S pcs) (hopening : S.opening file = some i)
    {p : ℤ × Option (ℕ × ℤ)} (hp : p ∈ S.held j) : p.1 ≠ file := by
  intro heq
  have hnone := (h.held j p hp).1
  rw [heq, hopening] at hnone
  cases hnone

/-- The step stores `e` in the row that the call has reserved, which stays in use, and the call goes
    on. -/
structure OpenSystem.Fills (S : OpenSystem ι) (i : ι) (th th' : VfsThread) (sys : VfsSystem ι)
    (file : ℤ) (e : OpenfileEntry) : Prop where
  reserved : S.Reserved i th.call file
  tables : sys.tables = S.sys.tables.setFile file e
  used : e.filesystem = (S.sys.tables.files file).filesystem
  returned : th'.proc.returned = false
  result : th'.proc.result = none

theorem OpenRun.fills (h : OpenRun S pcs i r th th' sys pc') (hres : S.Reserved i th.call file)
    (htables : sys.tables = S.sys.tables.setFile file e)
    (huse : e.filesystem = (S.sys.tables.files file).filesystem)
    (hret : pc'.proc.returned = false) (hresult : pc'.proc.result = none) :
    S.Fills i th th' sys file e where
  reserved := hres
  tables := htables
  used := huse
  returned := by rw [h.proc', hret]
  result := by rw [h.proc', hresult]

/-- The row stays reserved while it is filled. -/
theorem OpenRun.reserved_fill (h : OpenRun S pcs i r th th' sys pc') (hf : S.Fills i th th' sys file e) :
    (S.after i r th th' sys).Reserved i th.call file := by
  have hinuse := (h.inv.opening file i hf.reserved.opening).1
  refine ⟨hf.reserved.opens, ?_, hf.reserved.inTable⟩
  show openingAfter S.opening S.sys.tables i th' sys.tables file = _
  unfold openingAfter
  rw [hf.tables, VfsTables.setFile_files_self, hf.used, if_neg hinuse, if_neg hinuse,
    hf.reserved.opening, if_neg (by rw [hf.returned]; exact fun hand => Bool.false_ne_true hand.2)]

omit [DecidableEq ι] in
/-- The handles stay the same unless `vfs_open` returns one or `vfs_close` clears a row. -/
theorem heldAfter_same
    (hopen : th.call.Opens → ∀ ret, th'.proc.result = some ret → ret < 0)
    (hclose : th.call.Opens ∨ th.proc.storing = false) : S.heldAfter i th th' = S.held i := by
  unfold OpenSystem.heldAfter
  split
  · next pathname hc =>
      split
      · next ret hret => exact if_neg (not_le.2 (hopen ⟨pathname, hc⟩ ret hret))
      · rfl
  · next handle hc =>
      rcases hclose with ⟨pathname, hopens⟩ | hnot
      · rw [hc] at hopens
        cases hopens
      · rw [hnot]
        rfl
  · rfl

/-- A step that writes the row that the call has reserved, and keeps it in use. -/
theorem OpenRun.fill (h : OpenRun S pcs i r th th' sys pc') (hpanic : pcs i ≠ .panic)
    (hf : S.Fills i th th' sys file e) (hpc' : pc'.row = some file)
    (hpoint : (S.after i r th th' sys).At i th.call pc') :
    OpenInv (S.after i r th th' sys) (Function.update pcs i pc') := by
  have hres := hf.reserved
  have hrow := h.row hpanic hres.opening
  have hinuse := (h.inv.opening file i hres.opening).1
  have hheld : S.heldAfter i th th' = S.held i := by
    refine heldAfter_same (fun _ ret hret => ?_) (Or.inl hres.opens)
    rw [hf.result] at hret
    cases hret
  refine h.write hf.tables hf.returned (Or.inl hres.opening) ?_ ?_ ?_ ?_ ?_ ?_ hpoint
  · intro j _ fs filename _ hnone
    exact absurd hnone hinuse
  · intro file' hfile'
    exact Option.some.inj ((h.row hpanic hfile').symm.trans hrow)
  · exact fun _ => ⟨hres.opens, hpc'⟩
  · exact fun _ => Or.inl ⟨i, (h.reserved_fill hf).opening⟩
  · intro p
    rw [hheld]
    exact ⟨fun hp => ⟨hp, h.inv.held_ne hres.opening hp⟩, fun hand => hand.1⟩
  · exact fun j _ p hp => h.inv.held_ne hres.opening hp

end

section

variable {S : OpenSystem ι} {pcs : ι → VfsPc} {i j : ι} {r : ℤ} {th th' : VfsThread}
  {sys : VfsSystem ι} {pc' : VfsPc} {file : ℤ}

/-- `vfs_open` reserves a free row. -/
theorem OpenRun.reserve (h : OpenRun S pcs i r th th' sys pc') {fs : ℕ} {filename : List UInt8}
    (hpc : pcs i = .openReserve file fs filename) (hpc' : pc' = .openUnlockFiles file fs filename)
    (htables : sys.tables = S.sys.tables.setFile file
      { S.sys.tables.files file with filesystem := some fs }) :
    OpenInv (S.after i r th th' sys) (Function.update pcs i pc') := by
  have hpoint := h.point
  rw [hpc] at hpoint
  obtain ⟨hopens, hin, hnone⟩ := hpoint
  have hproc' := h.proc'
  rw [hpc'] at hproc'
  have hret : th'.proc.returned = false := by
    rw [hproc']
    rfl
  have hheld : S.heldAfter i th th' = S.held i := by
    refine heldAfter_same (fun _ ret hres => ?_) (Or.inl hopens)
    rw [hproc'] at hres
    cases hres
  have hopening : openingAfter S.opening S.sys.tables i th' sys.tables file = some i := by
    unfold openingAfter
    rw [htables, VfsTables.setFile_files_self, if_neg (Option.some_ne_none fs), if_pos hnone]
  have hunused : ∀ j, ∀ p ∈ S.held j, p.1 ≠ file := by
    intro j p hp heq
    have := (h.inv.held j p hp).used
    rw [heq] at this
    exact this hnone
  refine h.write htables hret (Or.inr (h.inv.opening_of_free hnone)) ?_ ?_ ?_ ?_ ?_ ?_ ?_
  · -- the lock keeps other calls from reserving the row
    intro j hj fs' filename' hpcj _
    have hi : (pcs i).Holds .openfile := by
      rw [hpc]
      trivial
    have hj' : (pcs j).Holds .openfile := by
      rw [hpcj]
      trivial
    exact absurd ((h.inv.follows.locked .openfile).unique j i hj' hi) hj
  · intro file' hfile'
    have hrow := h.row (by rw [hpc]; simp) hfile'
    rw [hpc] at hrow
    cases hrow
  · exact fun _ => ⟨hopens, by rw [hpc']; rfl⟩
  · exact fun _ => Or.inl ⟨i, hopening⟩
  · intro p
    rw [hheld]
    exact ⟨fun hp => ⟨hp, hunused i p hp⟩, fun hand => hand.1⟩
  · exact fun j _ p hp => hunused j p hp
  · rw [hpc']
    refine ⟨⟨hopens, hopening, hin⟩, ?_⟩
    show (sys.tables.files file).filesystem = _
    rw [htables, VfsTables.setFile_files_self]

/-- `vfs_open` gives a row back that it had reserved. -/
theorem OpenRun.undo (h : OpenRun S pcs i r th th' sys pc') {ret : ℤ}
    (hpc : pcs i = .openClear file ret) (hpc' : pc' = .leave [.openfile] ret)
    (htables : sys.tables = S.sys.tables.setFile file
      { S.sys.tables.files file with filesystem := none }) :
    OpenInv (S.after i r th th' sys) (Function.update pcs i pc') := by
  have hpoint := h.point
  rw [hpc] at hpoint
  obtain ⟨hres, hneg, hlimit⟩ := hpoint
  have hproc' := h.proc'
  rw [hpc'] at hproc'
  have hret : th'.proc.returned = false := by
    rw [hproc']
    rfl
  have hheld : S.heldAfter i th th' = S.held i := by
    refine heldAfter_same (fun _ ret hres => ?_) (Or.inl hres.opens)
    rw [hproc'] at hres
    cases hres
  have hans : th.proc.answered r = none := by
    rw [h.proc, hpc]
    rfl
  refine h.write htables hret (Or.inl hres.opening) (fun _ _ _ _ _ _ => rfl) ?_ ?_ ?_ ?_ ?_ ?_
  · intro file' hfile'
    have hrow := h.row (by rw [hpc]; simp) hfile'
    rw [hpc] at hrow
    exact (Option.some.inj hrow).symm
  · intro hopening
    have hused := openingAfter_used hopening
    rw [htables, VfsTables.setFile_files_self] at hused
    exact absurd rfl hused
  · exact fun hne => absurd rfl hne
  · intro p
    rw [hheld]
    exact ⟨fun hp => ⟨hp, h.inv.held_ne hres.opening hp⟩, fun hand => hand.1⟩
  · exact fun j _ p hp => h.inv.held_ne hres.opening hp
  · rw [hpc']
    exact fun _ => ⟨hneg, fun heq => after_refused hans (hlimit heq)⟩

/-- `vfs_close` clears the row of a handle. -/
theorem OpenRun.close (h : OpenRun S pcs i r th th' sys pc') {ret : ℤ}
    (hpc : pcs i = .closeClear file ret) (hpc' : pc' = .leave [.openfile] ret)
    (htables : sys.tables = S.sys.tables.setFile file
      { S.sys.tables.files file with filesystem := none }) :
    OpenInv (S.after i r th th' sys) (Function.update pcs i pc') := by
  have hpoint := h.point
  rw [hpc] at hpoint
  obtain ⟨hcall, q, hq, rfl⟩ := hpoint
  have hproc' := h.proc'
  rw [hpc'] at hproc'
  have hret : th'.proc.returned = false := by
    rw [hproc']
    rfl
  have hstoring : th.proc.storing = true := by
    rw [h.proc, hpc]
    rfl
  have hheld : S.heldAfter i th th' = (S.held i).filter (·.1 ≠ q.1) := by
    unfold OpenSystem.heldAfter
    rw [hcall, hstoring]
    rfl
  refine h.write htables hret (Or.inr (h.inv.held i q hq).1) (fun _ _ _ _ _ _ => rfl) ?_ ?_ ?_ ?_ ?_
    ?_
  · intro file' hfile'
    have hrow := h.row (by rw [hpc]; simp) hfile'
    rw [hpc] at hrow
    cases hrow
  · intro hopening
    have hused := openingAfter_used hopening
    rw [htables, VfsTables.setFile_files_self] at hused
    exact absurd rfl hused
  · exact fun hne => absurd rfl hne
  · intro p
    rw [hheld, List.mem_filter, decide_eq_true_iff]
  · intro j hj p hp heq
    exact hj (h.inv.exclusive j i p hp q hq heq)
  · rw [hpc']
    rintro ⟨pathname, hopens⟩
    rw [hcall] at hopens
    cases hopens

/-- `vfs_open` returns the handle. -/
theorem OpenRun.return (h : OpenRun S pcs i r th th' sys pc') (hpc : pcs i = .openReturn file)
    (hpc' : pc' = .returned file) (htables : sys.tables = S.sys.tables) :
    OpenInv (S.after i r th th' sys) (Function.update pcs i pc') := by
  have hpoint := h.point
  rw [hpc] at hpoint
  obtain ⟨hres, fs, fileid, hrow, hans⟩ := hpoint
  have hproc' := h.proc'
  rw [hpc'] at hproc'
  have hinuse := (h.inv.opening file i hres.opening).1
  have hheld : S.heldAfter i th th' = (file, S.answer i) :: S.held i := by
    obtain ⟨pathname, hcall⟩ := hres.opens
    unfold OpenSystem.heldAfter
    rw [hcall, hproc']
    exact if_pos hres.inTable.1
  have honly : ∀ file', S.opening file' = some i → file' = file := by
    intro file' hfile'
    have hrow' := h.row (by rw [hpc]; simp) hfile'
    rw [hpc] at hrow'
    exact (Option.some.inj hrow').symm
  have hopening : openingAfter S.opening S.sys.tables i th' sys.tables file = none := by
    unfold openingAfter
    rw [htables, if_neg hinuse, if_neg hinuse, if_pos ⟨hres.opening, by rw [hproc']; rfl⟩]
  have hothers : ∀ file' ≠ file, openingAfter S.opening S.sys.tables i th' sys.tables file' = S.opening file' := by
    intro file' hne
    by_cases hnone : (S.sys.tables.files file').filesystem = none
    · unfold openingAfter
      rw [htables, if_pos hnone, h.inv.opening_of_free hnone]
    · exact openingAfter_of_same (by rw [htables]) hnone fun _ hfile' => hne (honly file' hfile')
  refine h.inv.after h.thread h.call h.threads h.follows ?_ ?_ ?_ ?_ ?_ ?_ ?_ ?_
  · rw [hpc']
    intro _ hlimit
    have := hres.inTable.1
    rw [hlimit] at this
    exact absurd this (by decide)
  · intro file' j _ _
    rw [htables]
  · intro j _ file' fs' filename _ hnone
    rw [htables]
    exact hnone
  · intro file' hfile'
    by_cases hne : file' = file
    · rw [hne, hopening] at hfile'
      cases hfile'
    · rw [hothers file' hne] at hfile'
      exact absurd (honly file' hfile') hne
  · intro file' hlt hne
    rw [htables] at hne
    by_cases hfile : (file' : ℤ) = file
    · refine Or.inr ⟨i, (file, S.answer i), ?_, hfile.symm⟩
      rw [after_held_self, hheld]
      exact List.mem_cons_self
    · rcases h.inv.used file' hlt hne with ⟨j, hj⟩ | ⟨j, p, hp, heq⟩
      · exact Or.inl ⟨j, (hothers _ hfile).trans hj⟩
      · refine Or.inr ⟨j, p, ?_, heq⟩
        by_cases hj : j = i
        · subst hj
          rw [after_held_self, hheld]
          exact List.mem_cons_of_mem _ hp
        · rw [after_held_of_ne hj]
          exact hp
  · intro p hp
    rw [hheld] at hp
    rcases List.mem_cons.1 hp with rfl | hp
    · exact ⟨hopening, hres.inTable, fs, fileid, hans, by rw [← hrow, ← htables]; rfl⟩
    · exact (h.inv.held i p hp).after (by rw [htables])
  · intro j _ p _
    rw [htables]
  · intro p hp j hj q hq heq
    rw [hheld] at hp
    rcases List.mem_cons.1 hp with rfl | hp
    · exact h.inv.held_ne hres.opening hq heq.symm
    · exact hj (h.inv.exclusive i j p hp q hq heq).symm

end

section

variable {S : OpenSystem ι} {pcs : ι → VfsPc} {i j : ι} {r : ℤ} {th th' : VfsThread}
  {sys : VfsSystem ι} {pc pc' : VfsPc} {file : ℤ}

/-- What a step from `pc` to `pc'` must not do for `OpenRun.quiet` to apply. -/
structure QuietPcs (c : VfsCall) (pc pc' : VfsPc) : Prop where
  notPanic : pc ≠ .panic
  row : pc'.row = pc.row ∨ pc' = .panic
  returned : pc'.proc.returned = true → pc.row = none
  storing : pc.proc.storing = false
  result : c.Opens → ∀ ret, pc'.proc.result = some ret → ret < 0

/-- A call that goes on after the step. -/
theorem QuietPcs.going {c : VfsCall} (hpanic : pc ≠ .panic) (hrow : pc'.row = pc.row ∨ pc' = .panic)
    (hreturned : pc'.proc.returned = false) (hstoring : pc.proc.storing = false)
    (hresult : pc'.proc.result = none) : QuietPcs c pc pc' where
  notPanic := hpanic
  row := hrow
  returned hdone := by
    rw [hreturned] at hdone
    cases hdone
  storing := hstoring
  result _ ret hret := by
    rw [hresult] at hret
    cases hret

theorem OpenRun.held_quiet (h : OpenRun S pcs i r th th' sys pc') (hpc : pcs i = pc)
    (hq : QuietPcs th.call pc pc') : S.heldAfter i th th' = S.held i := by
  refine heldAfter_same (fun hopens ret hret => ?_) (Or.inr ?_)
  · rw [h.proc'] at hret
    exact hq.result hopens ret hret
  · rw [h.proc, hpc]
    exact hq.storing

theorem OpenRun.returned_quiet (h : OpenRun S pcs i r th th' sys pc') (hpc : pcs i = pc)
    (hq : QuietPcs th.call pc pc') (hdone : th'.proc.returned = true) (file : ℤ) :
    S.opening file ≠ some i := by
  intro hfile
  have hrow := h.row (by rw [hpc]; exact hq.notPanic) hfile
  rw [h.proc'] at hdone
  rw [hpc, hq.returned hdone] at hrow
  cases hrow

/-- A step that has nothing to do with the rows, with what is known at the next control point. -/
theorem OpenRun.quiet_of (h : OpenRun S pcs i r th th' sys pc') (hpc : pcs i = pc)
    (hq : QuietPcs th.call pc pc') (htables : sys.tables = S.sys.tables)
    (hpoint : (S.after i r th th' sys).At i th.call pc') :
    OpenInv (S.after i r th th' sys) (Function.update pcs i pc') := by
  refine h.quiet htables (h.held_quiet hpc hq) (h.returned_quiet hpc hq) (fun file hfile => ?_) hpoint
  have hrow := h.row (by rw [hpc]; exact hq.notPanic) hfile
  rw [hpc] at hrow
  rcases hq.row with heq | heq
  · exact Or.inl (heq.trans hrow)
  · exact Or.inr heq

/-- The same if the knowledge is the old one. -/
theorem OpenRun.pass (h : OpenRun S pcs i r th th' sys pc') (hpc : pcs i = pc)
    (hq : QuietPcs th.call pc pc') (htables : sys.tables = S.sys.tables)
    (hans : pc.proc.answered r = none) (hpoint : S.At i th.call pc') :
    OpenInv (S.after i r th th' sys) (Function.update pcs i pc') := by
  refine h.quiet_of hpc hq htables ?_
  refine h.at_of_quiet htables (h.held_quiet hpc hq) (h.returned_quiet hpc hq) ?_ hpoint
  rw [h.proc, hpc]
  exact hans

omit [DecidableEq ι] in
/-- `vfs_open` finds no free row: all rows are held or being opened. -/
theorem OpenInv.allTaken (h : OpenInv S pcs)
    (hfull : S.sys.tables.findFile (·.filesystem = none) = none) : S.AllTaken := by
  intro file hlt
  refine h.used file hlt ?_
  have := VfsTables.findFile_eq_none.1 hfull file hlt
  exact of_decide_eq_false this

theorem OpenRun.after_answered (h : OpenRun S pcs i r th th' sys pc') {fs : ℕ}
    {filename : List UInt8} (hpc : pcs i = .openDriver file fs filename) :
    (S.after i r th th' sys).answer i = some (fs, r) := by
  show Function.update S.answer i _ i = _
  rw [Function.update_self, h.proc, hpc]
  rfl

/-- The driver has answered `vfs_open`. -/
theorem OpenRun.driver (h : OpenRun S pcs i r th th' sys pc') {fs : ℕ} {filename : List UInt8}
    (hpc : pcs i = .openDriver file fs filename) (htables : sys.tables = S.sys.tables)
    (hpc' : (r < 0 ∧ pc' = .openUndo file r) ∨ (0 ≤ r ∧ pc' = .openFileid file r)) :
    OpenInv (S.after i r th th' sys) (Function.update pcs i pc') := by
  have hpoint := h.point
  rw [hpc] at hpoint
  obtain ⟨hres, hfs⟩ := hpoint
  have hans := h.after_answered hpc
  have hq : QuietPcs th.call (.openDriver file fs filename) pc' := by
    rcases hpc' with ⟨-, rfl⟩ | ⟨-, rfl⟩
    · exact .going (by simp) (Or.inl rfl) rfl rfl rfl
    · exact .going (by simp) (Or.inl rfl) rfl rfl rfl
  have hopening := h.opening_eq htables (h.returned_quiet hpc hq)
  have hres' : (S.after i r th th' sys).Reserved i th.call file :=
    hres.congr fun heq => by rw [hopening]; exact heq
  refine h.quiet_of hpc hq htables ?_
  rcases hpc' with ⟨hneg, rfl⟩ | ⟨hpos, rfl⟩
  · exact ⟨hres', hneg, fun hlimit => Or.inr ⟨fs, by rw [hans, hlimit]⟩⟩
  · refine ⟨hres', fs, ?_, hans⟩
    show (sys.tables.files file).filesystem = _
    rw [htables]
    exact hfs

/-- `vfs_open` stores the file id. -/
theorem OpenRun.openFileid (h : OpenRun S pcs i r th th' sys pc') {fileid : ℤ}
    (hpc : pcs i = .openFileid file fileid) (hpc' : pc' = .openSeek file)
    (htables : sys.tables = S.sys.tables.setFile file
      { S.sys.tables.files file with fileid := fileid }) :
    OpenInv (S.after i r th th' sys) (Function.update pcs i pc') := by
  have hpoint := h.point
  have hans : th.proc.answered r = none := by
    rw [h.proc, hpc]
    rfl
  subst hpc'
  rw [hpc] at hpoint
  obtain ⟨hres, fs, hfs, hanswer⟩ := hpoint
  have hf := h.fills hres htables rfl rfl rfl
  refine h.fill (by rw [hpc]; simp) hf rfl ⟨h.reserved_fill hf, fs, ?_, ?_⟩
  · show (sys.tables.files file).filesystem = _
    rw [htables, VfsTables.setFile_files_self]
    exact hfs
  · show _ = some (fs, (sys.tables.files file).fileid)
    rw [htables, VfsTables.setFile_files_self, after_answer hans]
    exact hanswer

/-- `vfs_open` stores the seek position. -/
theorem OpenRun.openSeek (h : OpenRun S pcs i r th th' sys pc')
    (hpc : pcs i = .openSeek file) (hpc' : pc' = .openReturn file)
    (htables : sys.tables = S.sys.tables.setFile file
      { S.sys.tables.files file with seekPosition := 0 }) :
    OpenInv (S.after i r th th' sys) (Function.update pcs i pc') := by
  have hpoint := h.point
  have hans : th.proc.answered r = none := by
    rw [h.proc, hpc]
    rfl
  subst hpc'
  rw [hpc] at hpoint
  obtain ⟨hres, fs, hfs, hanswer⟩ := hpoint
  have hf := h.fills hres htables rfl rfl rfl
  refine h.fill (by rw [hpc]; simp) hf rfl
    ⟨h.reserved_fill hf, fs, (S.sys.tables.files file).fileid, ?_, ?_⟩
  · show sys.tables.files file = _
    rw [htables, VfsTables.setFile_files_self]
    exact OpenfileEntry.ext hfs rfl rfl
  · rw [after_answer hans]
    exact hanswer

theorem leave_result (sems : List VfsSem) (ret : ℤ) : (leave sems ret).result = none := by
  cases sems with
  | nil => rfl
  | cons sem sems => rfl

/-- A step of a call keeps the invariant. -/
theorem OpenRun.step (h : OpenRun S pcs i r th th' sys pc')
    (hstep : PcStep S.sys.shared r (pcs i) pc' sys.shared) :
    OpenInv (S.after i r th th' sys) (Function.update pcs i pc') := by
  have hpoint := h.point
  have htables : sys.tables = sys.shared.tables := rfl
  generalize hpc : pcs i = pc at hstep hpoint
  generalize sys.shared = s' at hstep htables
  cases hstep with
  | unlock =>
      refine h.pass hpc ⟨by simp, Or.inl rfl, fun _ => rfl, rfl, fun hopens ret hret => ?_⟩ htables rfl
        hpoint
      rw [VfsPc.proc, leave_result] at hret
      cases hret
  | endOp =>
      refine h.pass hpc ⟨by simp, Or.inl rfl, fun _ => rfl, rfl, fun hopens ret hret => ?_⟩ htables rfl
        fun hopens => (hpoint hopens).2
      cases hret
      exact (hpoint hopens).1
  | endPanic => exact h.pass hpc (.going (by simp) (Or.inr rfl) rfl rfl rfl) htables rfl trivial
  | openUnusable =>
      refine h.pass hpc ⟨by simp, Or.inl rfl, fun _ => rfl, rfl, fun hopens ret hret => ?_⟩ htables rfl
        fun _ hlimit => absurd hlimit (by decide)
      cases hret
      decide
  | openMalformed =>
      exact h.pass hpc (.going (by simp) (Or.inl rfl) rfl rfl rfl) htables rfl
        fun _ => ⟨by decide, fun hlimit => absurd hlimit (by decide)⟩
  | openStart => exact h.pass hpc (.going (by simp) (Or.inl rfl) rfl rfl rfl) htables rfl hpoint
  | openTable hpos | openFiles hpos =>
      exact h.pass hpc (.going (by simp) (Or.inl rfl) rfl rfl rfl) htables rfl hpoint
  | openLimit hfull =>
      refine h.quiet_of hpc (.going (by simp) (Or.inl rfl) rfl rfl rfl) htables fun _ => ?_
      refine ⟨by decide, fun _ => Or.inl ?_⟩
      show Function.update S.full i _ i
      rw [Function.update_self]
      exact Or.inr (h.inv.allTaken hfull)
  | openNoSuchFs =>
      exact h.pass hpc (.going (by simp) (Or.inl rfl) rfl rfl rfl) htables rfl
        fun _ => ⟨by decide, fun hlimit => absurd hlimit (by decide)⟩
  | openScan hfile hfs =>
      obtain ⟨hlt, hfree⟩ := VfsTables.findFile_eq_some hfile
      refine h.pass hpc (.going (by simp) (Or.inl rfl) rfl rfl rfl) htables rfl ⟨hpoint, ?_, ?_⟩
      · exact ⟨Int.natCast_nonneg _, by exact_mod_cast hlt⟩
      · exact of_decide_eq_true hfree
  | openReserve => exact h.reserve hpc rfl htables
  | openUnlockFiles | openUnlockTable =>
      exact h.pass hpc (.going (by simp) (Or.inl rfl) rfl rfl rfl) htables rfl hpoint
  | openFail hneg => exact h.driver hpc htables (Or.inl ⟨hneg, rfl⟩)
  | openDriver hpos => exact h.driver hpc htables (Or.inr ⟨hpos, rfl⟩)
  | openUndo hpos => exact h.pass hpc (.going (by simp) (Or.inl rfl) rfl rfl rfl) htables rfl hpoint
  | openClear => exact h.undo hpc rfl htables
  | openFileid => exact h.openFileid hpc rfl htables
  | openSeek => exact h.openSeek hpc rfl htables
  | openReturn => exact h.return hpc rfl htables
  | openPanic => exact h.pass hpc (.going (by simp) (Or.inr rfl) rfl rfl rfl) htables rfl trivial
  | closeUnusable =>
      refine h.pass hpc ⟨by simp, Or.inl rfl, fun _ => rfl, rfl, fun hopens ret hret => ?_⟩ htables rfl
        fun _ hlimit => absurd hlimit (by decide)
      cases hret
      decide
  | closeStart => exact h.pass hpc (.going (by simp) (Or.inl rfl) rfl rfl rfl) htables rfl hpoint
  | closeLock hpos => exact h.pass hpc (.going (by simp) (Or.inl rfl) rfl rfl rfl) htables rfl hpoint
  | closeInvalid hnone =>
      -- the row of a handle is in use
      obtain ⟨-, p, hp, rfl⟩ := hpoint
      exact absurd hnone (h.inv.held i p hp).used
  | closeVerify hopen =>
      exact h.pass hpc (.going (by simp) (Or.inl rfl) rfl rfl rfl) htables rfl hpoint
  | closeRefuse =>
      refine h.pass hpc ⟨by simp, Or.inl rfl, fun _ => rfl, rfl, fun hopens => ?_⟩ htables rfl
        fun hopens => absurd hopens hpoint
      exact absurd hopens hpoint
  | closePanic => exact h.pass hpc (.going (by simp) (Or.inr rfl) rfl rfl rfl) htables rfl trivial
  | closeLoad hfs => exact h.pass hpc (.going (by simp) (Or.inl rfl) rfl rfl rfl) htables rfl hpoint
  | closeDriver => exact h.pass hpc (.going (by simp) (Or.inl rfl) rfl rfl rfl) htables rfl hpoint
  | closeClear => exact h.close hpc rfl htables
  | _ => exact hpoint.elim

end

section

variable {S S' : OpenSystem ι} {pcs : ι → VfsPc} {i : ι}

/-- A thread makes a call. -/
theorem OpenInv.call (h : OpenInv S pcs) {c : VfsCall} (hallowed : S.Allowed (.call i c))
    (hexec : S.exec (.call i c) = some S') : ∃ pcs', OpenInv S' pcs' := by
  obtain ⟨sys, hsys, rfl⟩ := Option.map_eq_some_iff.1 hexec
  obtain ⟨pc, hpc, hpoint⟩ : ∃ pc, c.start = some pc ∧ ∀ S'' : OpenSystem ι,
      S''.held i = S.held i → S''.At i c pc := by
    rcases hallowed with ⟨pathname, rfl⟩ | ⟨p, hp, rfl⟩
    · exact ⟨.openStart pathname, rfl, fun _ _ => ⟨pathname, rfl⟩⟩
    · exact ⟨.closeStart p.1, rfl, fun S'' hheld => ⟨rfl, p, by rw [hheld]; exact hp, rfl⟩⟩
  obtain ⟨hidle, hshared, hthreads, hfollows⟩ := h.follows.call hpc hsys
  have htables : sys.tables = S.sys.tables := congrArg VfsShared.tables hshared
  obtain ⟨ret, hret⟩ := h.follows.returned hidle
  -- a thread without a call is not opening a row
  have hnot : ∀ file, S.opening file ≠ some i := by
    intro file hfile
    rcases (h.opening file i hfile).2.2 with hrow | hpanic
    · rw [hret] at hrow
      cases hrow
    · rw [hret] at hpanic
      cases hpanic
  refine ⟨Function.update pcs i pc, hfollows, fun j u hu => ?_, fun file j hfile => ?_, ?_, ?_,
    h.exclusive⟩
  · by_cases hj : j = i
    · subst hj
      have hu' : sys.threads j = some u := hu
      rw [hthreads, Function.update_self] at hu'
      cases hu'
      rw [Function.update_self]
      exact hpoint _ rfl
    · have hu' : sys.threads j = some u := hu
      rw [hthreads, Function.update_of_ne hj] at hu'
      rw [Function.update_of_ne hj]
      refine (h.point j u hu').frame (fun file hfile => ⟨hfile, ?_⟩) ?_ ?_ ?_ rfl
      · show sys.tables.files file = _
        rw [htables]
      · intro file fs filename _ hnone
        show (sys.tables.files file).filesystem = none
        rw [htables]
        exact hnone
      · rintro (hfull | ⟨fs, hans⟩)
        · left
          show Function.update S.full i _ j
          rw [Function.update_of_ne hj]
          exact hfull
        · exact Or.inr ⟨fs, (Function.update_of_ne hj ..).trans hans⟩
      · exact Function.update_of_ne hj ..
  · have hj : j ≠ i := by
      rintro rfl
      exact hnot file hfile
    obtain ⟨hused, ⟨u, hu, hopens⟩, hrow⟩ := h.opening file j hfile
    refine ⟨?_, ⟨u, ?_, hopens⟩, ?_⟩
    · show (sys.tables.files file).filesystem ≠ none
      rw [htables]
      exact hused
    · show u ∈ sys.threads j
      rw [hthreads, Function.update_of_ne hj]
      exact hu
    · rw [Function.update_of_ne hj]
      exact hrow
  · intro file hlt hne
    have hne' : (sys.tables.files file).filesystem ≠ none := hne
    rw [htables] at hne'
    exact h.used file hlt hne'
  · intro j p hp
    obtain ⟨hopening, hin, fs, fileid, hp2, hrow⟩ := h.held j p hp
    refine ⟨hopening, hin, fs, fileid, hp2, ?_⟩
    show sys.tables.files p.1 = _
    rw [htables]
    exact hrow

/-- A step keeps the invariant. -/
theorem OpenInv.exec (h : OpenInv S pcs) {a : VfsLabel ι} (hallowed : S.Allowed a)
    (hexec : S.exec a = some S') : ∃ pcs', OpenInv S' pcs' := by
  cases a with
  | deinit => exact hallowed.elim
  | call i c => exact h.call hallowed hexec
  | run i r =>
      simp only [OpenSystem.exec] at hexec
      split at hexec
      case h_2 => cases hexec
      next th hth =>
      obtain ⟨⟨th', s1⟩, hrun, rfl⟩ := Option.map_eq_some_iff.1 hexec
      obtain ⟨hcall, hthreads, pc', hstep, hproc', hfollows⟩ := h.follows.run hth hrun
      have hopenRun : OpenRun S pcs i r th th' (s1.setThread i th') pc' :=
        ⟨h, hth, h.follows.thread i th hth, hproc', hcall, hthreads, hfollows, h.point i th hth⟩
      exact ⟨_, hopenRun.step hstep⟩

end

/-! ## Handles are exclusive -/

/-- **Handles of open files.** No two threads hold one handle. The row of a handle has the filesystem
and the file id that the driver gave to the `vfs_open` that returned it, and the seek position 0. A
row is in use only if it is held, or being opened by a `vfs_open` that has not returned; so a call
that has returned an error has left none. And a `vfs_open` has returned `VFS_LIMIT` only if at some
moment of the call all rows were held or being opened, or if this was the answer of the driver. -/
theorem openReachable_law {S : OpenSystem ι} (hreach : OpenReachable S) :
    (∀ i j, ∀ p ∈ S.held i, ∀ q ∈ S.held j, p.1 = q.1 → i = j) ∧
    (∀ i, ∀ p ∈ S.held i, ∃ fs fileid, p.2 = some (fs, fileid) ∧
      S.sys.tables.files p.1 = ⟨some fs, fileid, 0⟩) ∧
    (∀ file : ℕ, file < configMaxOpenFiles → (S.sys.tables.files file).filesystem ≠ none →
      S.Taken file) ∧
    (∀ file i, S.opening file = some i → ∃ th ∈ S.sys.threads i,
      th.call.Opens ∧ th.proc.returned = false) ∧
    ∀ i, ∀ th ∈ S.sys.threads i, th.call.Opens → th.proc = .done vfsLimit →
      S.full i ∨ ∃ fs, S.answer i = some (fs, vfsLimit) := by
  obtain ⟨pcs, hinv⟩ : ∃ pcs, OpenInv S pcs := by
    refine Reach.invariant (I := fun S => ∃ pcs, OpenInv S pcs) ?_ ?_ hreach
    · exact fun S hS => ⟨_, openInit_inv hS⟩
    · rintro S a S' ⟨pcs, hS⟩ ⟨hallowed, hexec⟩
      exact hS.exec hallowed hexec
  refine ⟨hinv.exclusive, fun i p hp => (hinv.held i p hp).2.2, hinv.used, fun file i hfile => ?_,
    fun i th hth hopens hproc => ?_⟩
  · obtain ⟨-, ⟨th, hth, hopens⟩, hrow⟩ := hinv.opening file i hfile
    refine ⟨th, hth, hopens, ?_⟩
    have hproc := hinv.follows.thread i th hth
    cases hdone : th.proc with
    | done ret =>
        rw [hdone] at hproc
        rw [VfsPc.eq_returned hproc.symm] at hrow
        rcases hrow with hrow | hrow <;> cases hrow
    | _ => rfl
  · have hpoint := hinv.point i th hth
    have hproc' := hinv.follows.thread i th hth
    rw [hproc] at hproc'
    rw [VfsPc.eq_returned hproc'.symm] at hpoint
    exact hpoint hopens rfl

/-- One volume is mounted, with the name `a`. -/
def oneVolume : OpenSystem (Fin 1) where
  sys := { vfsInit with
    tables := ⟨fun row => if row = 0 then ⟨some 0, [97]⟩ else ⟨none, []⟩, fun _ => ⟨none, 0, 0⟩⟩ }
  opening _ := none
  answer _ := none
  held _ := []
  full _ := False

theorem oneVolume_init : OpenInit oneVolume := ⟨fun _ _ => rfl, fun _ => rfl, fun _ => rfl,
  fun _ => rfl, fun _ => rfl⟩

/-- The thread opens `[a]b`, and the driver answers `r`; `n` steps follow. -/
def openLabels (r : ℤ) (n : ℕ) : List (VfsLabel (Fin 1)) :=
  .call 0 (.open [91, 97, 93, 98]) :: List.replicate 7 (.run 0 0) ++ .run 0 r ::
    List.replicate n (.run 0 0)

theorem openLabels_allowed (r : ℤ) (n : ℕ) (S : OpenSystem (Fin 1)) :
    ∀ a ∈ openLabels r n, S.Allowed a := by
  intro a ha
  simp only [openLabels, List.cons_append, List.mem_cons, List.mem_append, List.mem_replicate] at ha
  rcases ha with rfl | ⟨-, rfl⟩ | rfl | ⟨-, rfl⟩
  · exact Or.inl ⟨_, rfl⟩
  · trivial
  · trivial
  · trivial

/-- A step in a state in which the row 1 is neither held nor being opened. -/
def execUnfilled (S : OpenSystem (Fin 1)) (a : VfsLabel (Fin 1)) : Option (OpenSystem (Fin 1)) :=
  if S.opening 1 = none ∧ S.held 0 = [] then S.exec a else none

theorem execUnfilled_full {S S' : OpenSystem (Fin 1)} {a : VfsLabel (Fin 1)} (hfull : ¬ S.full 0)
    (hexec : execUnfilled S a = some S') : S.exec a = some S' ∧ ¬ S'.full 0 := by
  unfold execUnfilled at hexec
  split at hexec
  case isFalse => cases hexec
  next hfree =>
  refine ⟨hexec, ?_⟩
  cases a with
  | call i c =>
      obtain ⟨sys, -, rfl⟩ := Option.map_eq_some_iff.1 hexec
      obtain rfl : i = 0 := Subsingleton.elim _ _
      show ¬ Function.update S.full 0 False 0
      rw [Function.update_self]
      exact id
  | deinit => cases hexec
  | run i r =>
      obtain rfl : i = 0 := Subsingleton.elim _ _
      simp only [OpenSystem.exec] at hexec
      split at hexec
      case h_2 => cases hexec
      obtain ⟨p, -, rfl⟩ := Option.map_eq_some_iff.1 hexec
      show ¬ Function.update S.full 0 (S.full 0 ∨ S.AllTaken) 0
      rw [Function.update_self]
      rintro (hold | hall)
      · exact hfull hold
      · rcases hall 1 (by decide) with ⟨j, hj⟩ | ⟨j, q, hq, -⟩
        · exact absurd (hfree.1.symm.trans hj) (Option.some_ne_none j).symm
        · obtain rfl : j = 0 := Subsingleton.elim _ _
          rw [hfree.2] at hq
          cases hq

theorem reach_of_unfilled {S S' : OpenSystem (Fin 1)} (hreach : OpenReachable S)
    (hfull : ¬ S.full 0) {labels : List (VfsLabel (Fin 1))}
    (hallowed : ∀ S : OpenSystem (Fin 1), ∀ a ∈ labels, S.Allowed a)
    (hrun : runOps execUnfilled S labels = some S') : OpenReachable S' ∧ ¬ S'.full 0 := by
  induction labels generalizing S with
  | nil =>
      cases hrun
      exact ⟨hreach, hfull⟩
  | cons a labels ih =>
      unfold runOps at hrun
      split at hrun
      case h_2 => cases hrun
      next S1 hstep =>
      obtain ⟨hexec, hfull'⟩ := execUnfilled_full hfull hstep
      exact ih (hreach.step a ⟨hallowed S a List.mem_cons_self, hexec⟩) hfull'
        (fun S b hb => hallowed S b (List.mem_cons_of_mem _ hb)) hrun

/-- The driver gives the file id 7, and the thread has the handle 0. -/
def openedFile : OpenSystem (Fin 1) :=
  (runOps execUnfilled oneVolume (openLabels 7 3)).get (by decide +kernel)

theorem openReachable_law_openedFile :
    OpenReachable openedFile ∧ openedFile.held 0 = [(0, some (0, 7))] ∧
      openedFile.sys.tables.files 0 = ⟨some 0, 7, 0⟩ := by
  have hreach : OpenReachable openedFile :=
    (reach_of_unfilled (.init oneVolume_init) id (fun S => openLabels_allowed 7 3 S)
      (Option.some_get (by decide +kernel)).symm).1
  have hheld : openedFile.held 0 = [(0, some (0, 7))] := by decide +kernel
  obtain ⟨-, hrows, -⟩ := openReachable_law hreach
  have hmem : (0, some (0, 7)) ∈ openedFile.held 0 := by
    rw [hheld]
    exact List.mem_cons_self
  obtain ⟨fs, fileid, hpair, hrow⟩ := hrows 0 _ hmem
  simp only [Option.some.injEq, Prod.mk.injEq] at hpair hrow
  refine ⟨hreach, hheld, ?_⟩
  rw [hrow, hpair.1, hpair.2]

/-- The driver answers `VFS_LIMIT`. -/
def driverLimit : OpenSystem (Fin 1) :=
  (runOps execUnfilled oneVolume (openLabels vfsLimit 4)).get (by decide +kernel)

/-- `vfs_open` returns what the driver has answered, although no row is held or being opened. -/
theorem driverLimit_not_full :
    OpenReachable driverLimit ∧ (∃ th ∈ driverLimit.sys.threads 0, th.call.Opens ∧
      th.proc = .done vfsLimit) ∧ ¬ driverLimit.full 0 := by
  have hrun : OpenReachable driverLimit ∧ ¬ driverLimit.full 0 :=
    reach_of_unfilled (.init oneVolume_init) id (fun S => openLabels_allowed vfsLimit 4 S)
      (Option.some_get (by decide +kernel)).symm
  have hresult : ((driverLimit.sys.threads 0).map fun th => (th.call, th.proc.result))
      = some (.open [91, 97, 93, 98], some vfsLimit) := by decide +kernel
  obtain ⟨th, hth, hpair⟩ := Option.map_eq_some_iff.1 hresult
  rw [Prod.mk.injEq] at hpair
  exact ⟨hrun.1, ⟨th, hth, ⟨_, hpair.1⟩, VfsProc.eq_done hpair.2⟩, hrun.2⟩

end Kudos
