import Kudos.Drivers.Ide
import Kudos.Fs.Filesystems
import Kudos.Fs.TfsByteOrder

set_option autoImplicit false

/-! # TFS on the x86_64 disk driver

TFS tests the result of a request for 0 only, and then it returns an error. So a call of TFS reports
every failure that the driver reports. Other requests that are not carried out go unnoticed: what TFS
finds in its buffer is what was there before, and what it writes is lost. -/

namespace Kudos

open Words

/-! ## Calls on the driver -/

/-- What surrounds a request: the address of its buffer, the outcome of `ide_wait`, and what the buffer
    holds before it. -/
structure IdeIo where
  buf : BitVec 32
  wait : ℤ
  stale : Block

/-- A request that was made, with its result. -/
structure IdeCall where
  request : IdeRequest
  wait : ℤ
  result : ℤ × Option IdeTransfer

section

variable {α β : Type} (devices : ℕ → IdeDevice) (drive : UInt8)

/-- Run on a drive with the sectors `d`. The result comes with the requests that were made. -/
def TfsProc.runIde : TfsProc α → (ℕ → Block) → (ℕ → IdeIo) → Except KernelFault α × List IdeCall
  | done a, _, _ => (.ok a, [])
  | fault f, _, _ => (.error f, [])
  | readBlock n k, d, io =>
      let request := ⟨BitVec.ofNat 32 n, (io 0).buf⟩
      let result := ideReadBlock devices drive request (io 0).wait
      let buffer := match result.2 with
        | some t => d t.sector
        | none => (io 0).stale
      let rest := (k (if result.1 = 0 then none else some buffer)).runIde d fun m => io (m + 1)
      (rest.1, ⟨request, (io 0).wait, result⟩ :: rest.2)
  | writeBlock n b k, d, io =>
      let request := ⟨BitVec.ofNat 32 n, (io 0).buf⟩
      let result := ideWriteBlock devices drive request (io 0).wait
      let d := match result.2 with
        | some t => Function.update d t.sector b
        | none => d
      let rest := (k (result.1 ≠ 0)).runIde d fun m => io (m + 1)
      (rest.1, ⟨request, (io 0).wait, result⟩ :: rest.2)

end

/-! ## Operations that check their requests -/

namespace TfsProc

variable {α β : Type} {Error : α → Prop}

/-- After a request that failed, the result is an error. -/
def ChecksRequests (Error : α → Prop) : TfsProc α → Prop
  | done _ => True
  | fault _ => True
  | readBlock _ k => (k none).Returns Error ∧ ∀ b, (k (some b)).ChecksRequests Error
  | writeBlock _ _ k => (k false).Returns Error ∧ (k true).ChecksRequests Error

theorem Returns.of_runIde {devices : ℕ → IdeDevice} {drive : UInt8} {p : TfsProc α}
    (hp : p.Returns Error) {d : ℕ → Block} {io : ℕ → IdeIo} {a : α}
    (hrun : (p.runIde devices drive d io).1 = .ok a) : Error a := by
  induction p generalizing d io with
  | done b =>
      cases hrun
      exact hp
  | fault x => cases hrun
  | readBlock n k ih => exact ih _ (hp _) hrun
  | writeBlock n b k ih => exact ih _ (hp _) hrun

/-- If the driver reports the failures, so does the operation. -/
theorem ChecksRequests.error {devices : ℕ → IdeDevice} {drive : UInt8} {p : TfsProc α}
    (hp : p.ChecksRequests Error) {d : ℕ → Block} {io : ℕ → IdeIo} {a : α}
    (hrun : (p.runIde devices drive d io).1 = .ok a)
    (hreports : ∀ c ∈ (p.runIde devices drive d io).2, ReportsFailure devices drive c.result)
    (hfails : ∃ c ∈ (p.runIde devices drive d io).2, ¬ CarriedOut devices drive c.result) :
    Error a := by
  induction p generalizing d io with
  | done b =>
      obtain ⟨c, hc, -⟩ := hfails
      cases hc
  | fault x => cases hrun
  | readBlock n k ih =>
      simp only [runIde] at hrun hreports hfails
      by_cases hret : (ideReadBlock devices drive ⟨BitVec.ofNat 32 n, (io 0).buf⟩ (io 0).wait).1 = 0
      · rw [if_pos hret] at hrun
        exact hp.1.of_runIde hrun
      · -- the request was carried out, so it is a later one that fails
        rw [if_neg hret] at hrun hreports hfails
        refine ih _ (hp.2 _) hrun (fun c hc => hreports c (List.mem_cons_of_mem _ hc)) ?_
        obtain ⟨c, hc, hfail⟩ := hfails
        rcases List.mem_cons.1 hc with rfl | hc
        · exact absurd (hreports _ (List.mem_cons_self ..) hfail) hret
        · exact ⟨c, hc, hfail⟩
  | writeBlock n b k ih =>
      simp only [runIde] at hrun hreports hfails
      by_cases hret : (ideWriteBlock devices drive ⟨BitVec.ofNat 32 n, (io 0).buf⟩ (io 0).wait).1 = 0
      · rw [decide_eq_false (not_not.2 hret)] at hrun
        exact hp.1.of_runIde hrun
      · rw [decide_eq_true hret] at hrun hreports hfails
        refine ih _ hp.2 hrun (fun c hc => hreports c (List.mem_cons_of_mem _ hc)) ?_
        obtain ⟨c, hc, hfail⟩ := hfails
        rcases List.mem_cons.1 hc with rfl | hc
        · exact absurd (hreports _ (List.mem_cons_self ..) hfail) hret
        · exact ⟨c, hc, hfail⟩

theorem ChecksRequests.bind {Error' : β → Prop} {p : TfsProc β} {f : β → TfsProc α}
    (hp : p.ChecksRequests Error') (hf : ∀ b, (f b).ChecksRequests Error)
    (herror : ∀ b, Error' b → (f b).Returns Error) : (p >>= f).ChecksRequests Error := by
  show (p.bind f).ChecksRequests Error
  induction p with
  | done b => exact hf b
  | fault x => trivial
  | readBlock n k ih => exact ⟨hp.1.bind herror, fun b => ih _ (hp.2 b)⟩
  | writeBlock n b k ih => exact ⟨hp.1.bind herror, ih _ hp.2⟩

theorem ChecksRequests.ofExcept_bind {f : β → TfsProc α} (hf : ∀ b, (f b).ChecksRequests Error)
    (x : Except KernelFault β) : (ofExcept x >>= f).ChecksRequests Error := by
  cases x with
  | error x => trivial
  | ok b => exact hf b

theorem ChecksRequests.blockAt_bind {f : ℕ → TfsProc α} (hf : ∀ b, (f b).ChecksRequests Error)
    (e : Endian) (tfs : TfsVolume) (inode : Block) (i : ℤ) :
    (blockAt e tfs inode i >>= f).ChecksRequests Error := by
  unfold blockAt
  split
  · exact hf _
  · trivial

end TfsProc

section

variable (e : Endian) (tfs : TfsVolume)

theorem vfsError_neg : vfsError < 0 := by decide

theorem tfsOpen_checksRequests (filename : List UInt8) :
    (tfsOpen e tfs filename).ChecksRequests (· < 0) := by
  refine ⟨vfsError_neg, fun md => ?_⟩
  simp only [TfsProc.bind]
  cases findName md filename <;> trivial

theorem zeroBlocks_checksRequests (inode : Block) (n i : ℕ) :
    (zeroBlocks e tfs inode n i).ChecksRequests (· < 0) := by
  induction n generalizing i with
  | zero => trivial
  | succ n ih => exact ⟨vfsError_neg, ih (i + 1)⟩

theorem createWrite_checksRequests (bat md inode : Block) (index numblocks : ℕ) :
    (createWrite e tfs bat md inode index numblocks).ChecksRequests (· < 0) :=
  ⟨vfsError_neg, vfsError_neg, vfsError_neg, zeroBlocks_checksRequests ..⟩

theorem tfsCreate_checksRequests (filename : List UInt8) (size : ℤ) :
    (tfsCreate e tfs filename size).ChecksRequests (· < 0) := by
  unfold tfsCreate
  simp only
  split
  · trivial
  · refine ⟨vfsError_neg, fun md => ?_⟩
    simp only [TfsProc.bind]
    cases createIndex e md filename (List.range tfsMaxFiles) (-1) with
    | none => trivial
    | some index =>
        simp only
        split
        · trivial
        · refine ⟨vfsError_neg, fun bat => ?_⟩
          simp only [TfsProc.bind]
          split
          · trivial
          · split
            · exact createWrite_checksRequests ..
            · trivial

theorem tfsRemove_checksRequests (filename : List UInt8) :
    (Page.tfsRemove e tfs filename).ChecksRequests (· < 0) := by
  refine ⟨vfsError_neg, fun md => ?_⟩
  simp only [TfsProc.bind]
  cases findName md filename with
  | none => trivial
  | some index =>
      refine ⟨vfsError_neg, fun bat => ⟨vfsError_neg, fun inode => ?_⟩⟩
      refine TfsProc.ChecksRequests.ofExcept_bind (fun page => ?_) _
      refine TfsProc.ChecksRequests.ofExcept_bind (fun page => ?_) _
      exact ⟨vfsError_neg, vfsError_neg, trivial⟩

theorem readLoop_checksRequests (inode : Block) (bufsize b2 : ℤ) (n : ℕ) (b1 read : ℤ)
    (buffer : List UInt8) :
    (readLoop e tfs inode bufsize b2 n b1 read buffer).ChecksRequests (·.1 < 0) := by
  induction n generalizing b1 read buffer with
  | zero => trivial
  | succ n ih =>
      refine TfsProc.ChecksRequests.blockAt_bind (fun block => ?_) ..
      refine ⟨vfsError_neg, fun data => ?_⟩
      simp only [TfsProc.bind]
      split
      · exact ih _ _ _
      · exact ih _ _ _

theorem tfsRead_checksRequests (fileid bufsize offset : ℤ) :
    (tfsRead e tfs fileid bufsize offset).ChecksRequests (·.1 < 0) := by
  unfold tfsRead
  split
  · trivial
  · refine ⟨vfsError_neg, fun inode => ?_⟩
    simp only [TfsProc.bind]
    split
    · trivial
    · split
      · trivial
      · refine TfsProc.ChecksRequests.blockAt_bind (fun block => ?_) ..
        refine ⟨vfsError_neg, fun data => ?_⟩
        exact readLoop_checksRequests ..

theorem readPartial_bind_checksRequests {partly : Prop} [Decidable partly] (block : ℕ)
    {f : Option Block → TfsProc ℤ} (hnone : f none = return vfsError)
    (hsome : ∀ b, (f (some b)).ChecksRequests (· < 0)) :
    (readPartial partly block >>= f).ChecksRequests (· < 0) := by
  unfold readPartial
  split
  · refine ⟨?_, hsome⟩
    show (f none).Returns (· < 0)
    rw [hnone]
    exact vfsError_neg
  · exact hsome _

theorem writeLoop_checksRequests (inode : Block) (data : ℕ → UInt8) (datasize b2 : ℤ) (n : ℕ)
    (b1 written : ℤ) :
    (writeLoop e tfs inode data datasize b2 n b1 written).ChecksRequests (· < 0) := by
  induction n generalizing b1 written with
  | zero => trivial
  | succ n ih =>
      refine TfsProc.ChecksRequests.blockAt_bind (fun block => ?_) ..
      split
      · refine readPartial_bind_checksRequests block rfl fun old => ?_
        exact ⟨vfsError_neg, ih _ _⟩
      · exact ⟨vfsError_neg, ih _ _⟩

theorem tfsWrite_checksRequests (fileid : ℤ) (data : ℕ → UInt8) (datasize offset : ℤ) :
    (tfsWrite e tfs fileid data datasize offset).ChecksRequests (· < 0) := by
  unfold tfsWrite
  split
  · trivial
  · refine ⟨vfsError_neg, fun inode => ?_⟩
    simp only [TfsProc.bind]
    split
    · trivial
    · split
      · trivial
      · refine TfsProc.ChecksRequests.blockAt_bind (fun block => ?_) ..
        refine readPartial_bind_checksRequests block rfl fun old => ?_
        exact ⟨vfsError_neg, writeLoop_checksRequests ..⟩

theorem tfsGetfree_checksRequests : (tfsGetfree e tfs).ChecksRequests (· < 0) :=
  ⟨vfsError_neg, fun _ => trivial⟩

/-- Every call of TFS returns an error if one of its requests has failed. -/
theorem TfsCall.checksRequests (call : TfsCall) :
    (call.proc e tfs).ChecksRequests (·.1 < 0) := by
  -- the calls without a buffer of their own
  have hmap : ∀ p : TfsProc ℤ, p.ChecksRequests (· < 0) →
      (p >>= fun ret => pure (ret, ([] : List UInt8))).ChecksRequests (·.1 < 0) :=
    fun p hp => hp.bind (fun _ => trivial) fun _ hret => hret
  cases call with
  | «open» filename => exact hmap _ (tfsOpen_checksRequests ..)
  | create filename size => exact hmap _ (tfsCreate_checksRequests ..)
  | remove filename => exact hmap _ (tfsRemove_checksRequests ..)
  | read fileid bufsize offset => exact tfsRead_checksRequests ..
  | write fileid data datasize offset => exact hmap _ (tfsWrite_checksRequests ..)
  | getfree => exact hmap _ (tfsGetfree_checksRequests ..)

end

/-! ## Failures that are reported -/

section

variable {devices : ℕ → IdeDevice} {drive : UInt8}

theorem ideReadBlock_reports (request : IdeRequest) (wait : ℤ) :
    ReportsFailure devices drive (ideReadBlock devices drive request wait) ↔
      Serves devices drive request wait :=
  ideBlock_reports (by decide) (by decide) (by decide)

theorem ideWriteBlock_reports (request : IdeRequest) (wait : ℤ) :
    ReportsFailure devices drive (ideWriteBlock devices drive request wait) ↔
      Serves devices drive request wait :=
  ideBlock_reports (by decide) (by decide) (by decide)

/-- The result of a request in a run is that of the driver. -/
theorem reportsFailure_of_mem_runIde {α : Type} {p : TfsProc α} {d : ℕ → Block} {io : ℕ → IdeIo}
    {c : IdeCall} (hc : c ∈ (p.runIde devices drive d io).2)
    (hserves : Serves devices drive c.request c.wait) : ReportsFailure devices drive c.result := by
  induction p generalizing d io with
  | done a => cases hc
  | fault x => cases hc
  | readBlock n k ih =>
      rcases List.mem_cons.1 hc with rfl | hc
      · exact (ideReadBlock_reports ..).2 hserves
      · exact ih _ hc
  | writeBlock n b k ih =>
      rcases List.mem_cons.1 hc with rfl | hc
      · exact (ideWriteBlock_reports ..).2 hserves
      · exact ih _ hc

end

/-- **Failed transfers.** The driver reports the failures of exactly the requests that it serves. So a
call of TFS that makes only such requests returns an error if one of them was not carried out. -/
theorem ide_reports_iff (devices : ℕ → IdeDevice) (drive : UInt8) (e : Endian) (tfs : TfsVolume)
    (call : TfsCall) (d : ℕ → Block) (io : ℕ → IdeIo) :
    (∀ request wait,
      (ReportsFailure devices drive (ideReadBlock devices drive request wait) ↔
        Serves devices drive request wait) ∧
      (ReportsFailure devices drive (ideWriteBlock devices drive request wait) ↔
        Serves devices drive request wait)) ∧
    ∀ ret, ((call.proc e tfs).runIde devices drive d io).1 = .ok ret →
      (∀ c ∈ ((call.proc e tfs).runIde devices drive d io).2, Serves devices drive c.request c.wait) →
      (∃ c ∈ ((call.proc e tfs).runIde devices drive d io).2, ¬ CarriedOut devices drive c.result) →
      ret.1 < 0 := by
  constructor
  · exact fun request wait => ⟨ideReadBlock_reports request wait, ideWriteBlock_reports request wait⟩
  · intro ret hrun hserves hfails
    exact (call.checksRequests e tfs).error hrun
      (fun c hc => reportsFailure_of_mem_runIde hc (hserves c hc)) hfails

/-- One hard disk with 100 sectors. -/
def smallDrive : ℕ → IdeDevice
  | 0 => ⟨1, 1, 0, 100⟩
  | _ => ⟨0, 0, 0, 0⟩

/-- A volume in a partition that starts at sector 60. It has as many blocks as the disk. -/
def sector60Volume : TfsVolume := ⟨60, 100, by decide⟩

/-- A file with one block, block 50 of the volume, in inode 3. -/
def sector60Disk : ℕ → Block
  | 63 => (Block.zero.setWord 0 (.ofBE 512)).setWord 1 (.ofBE 50)
  | _ => .zero

/-- Opening a file while the drive reports errors. -/
theorem ide_reports_iff_open : ∃ ret,
    (((TfsCall.open [97]).proc .little sector60Volume).runIde smallDrive 0 sector60Disk
      fun _ => ⟨1, -1, .zero⟩).1 = .ok ret ∧ ret.1 < 0 := by
  refine ⟨(vfsError, []), rfl, ?_⟩
  refine (ide_reports_iff smallDrive 0 .little sector60Volume (.open [97]) sector60Disk
    fun _ => ⟨1, -1, .zero⟩).2 (vfsError, []) rfl ?_ ?_
  · intro c hc
    obtain rfl := List.mem_singleton.1 hc
    exact .of_lt (by decide) (by decide) (by decide) (by decide)
  · refine ⟨_, List.mem_singleton_self _, ?_⟩
    rintro ⟨t, ht, -⟩
    cases ht

/-- The file is written to sector 110, which the disk does not have. The driver refuses the request and
    returns -2; `tfs_write` reports that all 512 bytes were written. -/
theorem ide_write_unreported :
    ideWriteBlock smallDrive 0 ⟨110, 1⟩ 0 = (-2, none) ∧
    ¬ ReportsFailure smallDrive 0 (ideWriteBlock smallDrive 0 ⟨110, 1⟩ 0) ∧
    (((TfsCall.write 3 (fun _ => 97) 512 0).proc .little sector60Volume).runIde smallDrive 0
      sector60Disk fun _ => ⟨1, 0, .zero⟩).1 = .ok (512, []) ∧
    ∃ c ∈ (((TfsCall.write 3 (fun _ => 97) 512 0).proc .little sector60Volume).runIde smallDrive 0
      sector60Disk fun _ => ⟨1, 0, .zero⟩).2, c.request.block = 110 ∧ c.result = (-2, none) := by
  have hrefused : ideWriteBlock smallDrive 0 ⟨110, 1⟩ 0 = (-2, none) := by decide +kernel
  refine ⟨hrefused, ?_, ?_, ?_⟩
  · rw [hrefused]
    intro hreports
    have hret := hreports fun hdone => by
      obtain ⟨t, ht, -⟩ := hdone
      cases ht
    cases hret
  · decide +kernel
  · refine ⟨⟨⟨110, 1⟩, 0, (-2, none)⟩, ?_, rfl, rfl⟩
    exact List.mem_cons_of_mem _ (List.mem_singleton_self _)

end Kudos
