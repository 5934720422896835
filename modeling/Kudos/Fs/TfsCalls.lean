import Kudos.Drivers.DiskData
import Kudos.Fs.TfsStore

set_option autoImplicit false

/-! # Calls of the filesystem by many threads, on the disk driver

On mips32 an operation of `fs/tfs.c` gets its blocks from `drivers/mips32/disk.c`, one synchronous request after
the other, while it holds the lock of the volume. Here the operations, the driver, the disk and the memory
run together: the lock passes from thread to thread, the interrupts come when they like, and other threads
use the disk for reading and the memory for what they like. `fsReachable_serves` says that the calls are
answered as by a store of files, in the order in which they got the lock. -/

namespace Kudos

open CellStore Disk NamedFiles Tfstool Transition Words

/-! ## Sectors and blocks -/

def blockOf (x : Sector) : Block := .ofBytes fun n => if h : n < 512 then x ⟨n, h⟩ else 0

def sectorOf (b : Block) : Sector := fun k => b.byte k

/-- The sectors as a disk of blocks. -/
def sectorBlocks (m : BitVec 32 → Sector) : ℕ → Block := fun n => blockOf (m (BitVec.ofNat 32 n))

/-- The disk has the blocks that the sectors hold, where a request can name them. -/
def HoldsBlocks (m : BitVec 32 → Sector) (d : ℕ → Block) : Prop := ∀ n, n < 2 ^ 32 → d n = sectorBlocks m n

theorem blockOf_sectorOf (b : Block) : blockOf (sectorOf b) = b := by
  refine Block.ext_word fun k hk => Block.word_ext_byte fun j hj => ?_
  have hlt : 4 * k + j < 512 := by omega
  unfold blockOf sectorOf
  rw [Block.byte_ofBytes _ hlt, dif_pos hlt]

theorem HoldsBlocks.write {m : BitVec 32 → Sector} {d : ℕ → Block} (h : HoldsBlocks m d) {n : ℕ} (hn : n < 2 ^ 32)
    (b : Block) : HoldsBlocks (Function.update m (BitVec.ofNat 32 n) (sectorOf b)) (Function.update d n b) := by
  intro k hk
  unfold sectorBlocks
  by_cases hkn : k = n
  · rw [hkn, Function.update_self, Function.update_self, blockOf_sectorOf]
  · have hne : BitVec.ofNat 32 k ≠ BitVec.ofNat 32 n := by
      intro heq
      have hnat := congrArg BitVec.toNat heq
      rw [BitVec.toNat_ofNat, BitVec.toNat_ofNat, Nat.mod_eq_of_lt hk, Nat.mod_eq_of_lt hn] at hnat
      exact hkn hnat
    rw [Function.update_of_ne hkn, Function.update_of_ne hne]
    exact h k hk

theorem TfsVolume.block_lt (tfs : TfsVolume) (n : BitVec 32) : tfs.block n < 2 ^ 32 :=
  Nat.mod_lt _ (by decide)

theorem HoldsBlocks.view_eq {m : BitVec 32 → Sector} {d : ℕ → Block} (h : HoldsBlocks m d) (tfs : TfsVolume) :
    tfs.view d = tfs.view (sectorBlocks m) := by
  funext n
  exact h _ (tfs.block_lt n)

/-! ## The blocks an operation asks for -/

namespace TfsProc

variable {α β : Type}

/-- Every block is one that a request can name, and every result has the property. -/
def Numbered (Q : α → Prop) : TfsProc α → Prop
  | done a => Q a
  | fault _ => True
  | readBlock n k => n < 2 ^ 32 ∧ ∀ r, (k r).Numbered Q
  | writeBlock n _ k => n < 2 ^ 32 ∧ ∀ r, (k r).Numbered Q

theorem Numbered.bind {Q : α → Prop} {R : β → Prop} {p : TfsProc α} {f : α → TfsProc β}
    (hp : p.Numbered Q) (hf : ∀ a, Q a → (f a).Numbered R) : (p >>= f).Numbered R := by
  show (p.bind f).Numbered R
  induction p with
  | done a => exact hf a hp
  | fault x => trivial
  | readBlock n k ih => exact ⟨hp.1, fun r => ih r (hp.2 r)⟩
  | writeBlock n b k ih => exact ⟨hp.1, fun r => ih r (hp.2 r)⟩

end TfsProc

section

variable (e : Endian) (tfs : TfsVolume)

theorem numbered_readBlock {n : ℕ} (hn : n < 2 ^ 32) : (readBlock n).Numbered fun _ => True :=
  ⟨hn, fun _ => trivial⟩

theorem numbered_writeBlock {n : ℕ} (hn : n < 2 ^ 32) (b : Block) : (writeBlock n b).Numbered fun _ => True :=
  ⟨hn, fun _ => trivial⟩

theorem numbered_ofExcept {α : Type} (x : Except KernelFault α) :
    (TfsProc.ofExcept x).Numbered fun _ => True := by
  cases x <;> trivial

theorem numbered_blockAt (inode : Block) (i : ℤ) : (blockAt e tfs inode i).Numbered (· < 2 ^ 32) := by
  unfold blockAt
  split
  · exact tfs.block_lt _
  · trivial

theorem numbered_zeroBlocks (inode : Block) (n i : ℕ) :
    (zeroBlocks e tfs inode n i).Numbered fun _ => True := by
  induction n generalizing i with
  | zero => trivial
  | succ n ih =>
      unfold zeroBlocks
      refine (numbered_writeBlock (tfs.block_lt _) _).bind fun r _ => ?_
      split
      · trivial
      · exact ih _

theorem numbered_createWrite (bat md inode : Block) (index numblocks : ℕ) :
    (createWrite e tfs bat md inode index numblocks).Numbered fun _ => True := by
  unfold createWrite
  refine (numbered_writeBlock (tfs.block_lt _) _).bind fun r _ => ?_
  split
  · trivial
  refine (numbered_writeBlock (tfs.block_lt _) _).bind fun r _ => ?_
  split
  · trivial
  refine (numbered_writeBlock (tfs.block_lt _) _).bind fun r _ => ?_
  split
  · trivial
  · exact numbered_zeroBlocks ..

theorem numbered_tfsCreate (filename : List UInt8) (size : ℤ) :
    (tfsCreate e tfs filename size).Numbered fun _ => True := by
  unfold tfsCreate
  simp only
  split
  · trivial
  refine (numbered_readBlock (tfs.block_lt _)).bind fun r _ => ?_
  cases r with
  | none => trivial
  | some md =>
      simp only
      split
      · split
        · trivial
        · refine (numbered_readBlock (tfs.block_lt _)).bind fun r _ => ?_
          cases r with
          | none => trivial
          | some bat =>
              simp only
              split
              · trivial
              · split
                · exact numbered_createWrite ..
                · trivial
      · trivial

theorem numbered_tfsRemove (filename : List UInt8) :
    (tfsRemove e tfs filename).Numbered fun _ => True := by
  unfold tfsRemove
  refine (numbered_readBlock (tfs.block_lt _)).bind fun r _ => ?_
  cases r with
  | none => trivial
  | some md =>
      simp only
      split
      · refine (numbered_readBlock (tfs.block_lt _)).bind fun r _ => ?_
        cases r with
        | none => trivial
        | some bat =>
            refine (numbered_readBlock (tfs.block_lt _)).bind fun r _ => ?_
            cases r with
            | none => trivial
            | some inode =>
                refine (numbered_ofExcept _).bind fun bat _ => (numbered_ofExcept _).bind fun bat _ => ?_
                refine (numbered_writeBlock (tfs.block_lt _) _).bind fun r _ => ?_
                split
                · trivial
                refine (numbered_writeBlock (tfs.block_lt _) _).bind fun r _ => ?_
                split
                · trivial
                · trivial
      · trivial

theorem numbered_readLoop (inode : Block) (bufsize b2 : ℤ) (n : ℕ) (b1 read : ℤ) (buffer : List UInt8) :
    (readLoop e tfs inode bufsize b2 n b1 read buffer).Numbered fun _ => True := by
  induction n generalizing b1 read buffer with
  | zero => trivial
  | succ n ih =>
      unfold readLoop
      refine (numbered_blockAt ..).bind fun block hblock => (numbered_readBlock hblock).bind fun r _ => ?_
      cases r with
      | none => trivial
      | some data =>
          simp only
          split
          · exact ih ..
          · exact ih ..

theorem numbered_tfsRead (fileid bufsize offset : ℤ) :
    (tfsRead e tfs fileid bufsize offset).Numbered fun _ => True := by
  unfold tfsRead
  split
  · trivial
  refine (numbered_readBlock (tfs.block_lt _)).bind fun r _ => ?_
  cases r with
  | none => trivial
  | some inode =>
      simp only
      split
      · trivial
      split
      · trivial
      refine (numbered_blockAt ..).bind fun block hblock => (numbered_readBlock hblock).bind fun r _ => ?_
      cases r with
      | none => trivial
      | some data => exact numbered_readLoop ..

theorem numbered_readPartial (partly : Prop) [Decidable partly] {n : ℕ} (hn : n < 2 ^ 32) :
    (readPartial partly n).Numbered fun _ => True := by
  unfold readPartial
  split
  · exact numbered_readBlock hn
  · trivial

theorem numbered_writeLoop (inode : Block) (data : ℕ → UInt8) (datasize b2 : ℤ) (n : ℕ) (b1 written : ℤ) :
    (writeLoop e tfs inode data datasize b2 n b1 written).Numbered fun _ => True := by
  induction n generalizing b1 written with
  | zero => trivial
  | succ n ih =>
      unfold writeLoop
      refine (numbered_blockAt ..).bind fun block hblock => ?_
      split
      · refine (numbered_readPartial _ hblock).bind fun r _ => ?_
        cases r with
        | none => trivial
        | some old =>
            refine (numbered_writeBlock hblock _).bind fun r _ => ?_
            split
            · trivial
            · exact ih ..
      · refine (numbered_writeBlock hblock _).bind fun r _ => ?_
        split
        · trivial
        · exact ih ..

theorem numbered_tfsWrite (fileid : ℤ) (data : ℕ → UInt8) (datasize offset : ℤ) :
    (tfsWrite e tfs fileid data datasize offset).Numbered fun _ => True := by
  unfold tfsWrite
  split
  · trivial
  refine (numbered_readBlock (tfs.block_lt _)).bind fun r _ => ?_
  cases r with
  | none => trivial
  | some inode =>
      simp only
      split
      · trivial
      split
      · trivial
      refine (numbered_blockAt ..).bind fun block hblock => (numbered_readPartial _ hblock).bind fun r _ => ?_
      cases r with
      | none => trivial
      | some old =>
          refine (numbered_writeBlock hblock _).bind fun r _ => ?_
          split
          · trivial
          · exact numbered_writeLoop ..

/-- An operation that reads one block of the volume, and then has its result. -/
theorem numbered_readOne {α : Type} (n : BitVec 32) {f : Option Block → TfsProc α}
    (hf : ∀ r, (f r).Numbered fun _ => True) : (readBlock (tfs.block n) >>= f).Numbered fun _ => True :=
  (numbered_readBlock (tfs.block_lt n)).bind fun r _ => hf r

theorem numbered_proc (tfs : TfsVolume) (req : TfsRequest) : (req.proc tfs).Numbered fun _ => True := by
  have hint : ∀ {p : TfsProc ℤ}, (p.Numbered fun _ => True) → (withoutData p).Numbered fun _ => True :=
    fun hp => hp.bind fun _ _ => trivial
  cases req with
  | create name size => exact hint (numbered_tfsCreate ..)
  | remove name => exact hint (numbered_tfsRemove ..)
  | openFile name =>
      refine hint (numbered_readOne _ _ fun r => ?_)
      cases r with
      | none => trivial
      | some md =>
          simp only
          split <;> trivial
  | read fileid bufsize offset => exact numbered_tfsRead ..
  | write fileid data datasize offset => exact hint (numbered_tfsWrite ..)
  | getfree =>
      refine hint (numbered_readOne _ _ fun r => ?_)
      cases r <;> trivial
  | filecount dirname =>
      refine hint ?_
      unfold tfsFilecount
      split
      · trivial
      · refine numbered_readOne _ _ fun r => ?_
        cases r <;> trivial
  | file dirname idx =>
      show (tfsFile .big tfs dirname idx).Numbered _
      unfold tfsFile
      split
      · trivial
      · refine numbered_readOne _ _ fun r => ?_
        cases r <;> trivial

end

/-! ## The system -/

namespace TfsProc

variable {α : Type}

/-- What the operation puts into its request: a block to be read, or a block and the data for it. -/
def Asks (block : BitVec 32) (operation : GbdOperation) (data : Sector) : TfsProc α → Prop
  | readBlock n _ => block = BitVec.ofNat 32 n ∧ operation = .read
  | writeBlock n b _ => block = BitVec.ofNat 32 n ∧ operation = .write ∧ data = sectorOf b
  | _ => False

/-- The operation goes on with the result of its request, and with what is in the buffer. -/
def resume (ok : Bool) (data : Block) : TfsProc α → TfsProc α
  | readBlock _ k => k (if ok then some data else none)
  | writeBlock _ _ k => k ok
  | p => p

end TfsProc

theorem TfsProc.Numbered.resume {α : Type} {Q : α → Prop} {p : TfsProc α} (h : p.Numbered Q) (ok : Bool)
    (data : Block) : (p.resume ok data).Numbered Q := by
  cases p with
  | done a => exact h
  | fault x => exact h
  | readBlock n k => exact h.2 _
  | writeBlock n b k => exact h.2 _

/-- A call of the filesystem that has got the lock. -/
structure HeldCall where
  request : TfsRequest
  /-- What is left of the operation. -/
  proc : TfsProc TfsAnswer
  /-- The request object of the `disk_submit_request` that it is in. -/
  waits : Option ℕ

structure FsSystem where
  dma : DmaSystem
  /-- The call that has the lock of the volume. -/
  holder : Option HeldCall
  /-- The calls that have given the lock back, with their answers, in order. -/
  served : List (TfsRequest × TfsAnswer)

inductive FsAction
  | take (req : TfsRequest)
  | submit (r : ℕ)
  | finish (r : ℕ)
  | release
  | other (action : DmaAction)

/-- What the others do: they do not write to the disk, and do not return from the request of the call
that has the lock. -/
def FsSystem.Others (s : FsSystem) : DmaAction → Prop
  | .driver (.prepare _ _ _ operation _ _) => operation = .read
  | .driver (.finish r) => ∀ c, s.holder = some c → c.waits ≠ some r
  | _ => True

/-- The steps of a volume of `n` blocks. A call that asks for a block has filled in the request, and its buffer
if it writes, and gets a semaphore. -/
inductive FsStep (n : ℕ) (rejects : BitVec 32 → BitVec 32 → Bool) : FsSystem → FsAction → FsSystem → Prop
  | take {s : FsSystem} {req : TfsRequest} : s.holder = none →
      req.Allowed (storedFiles ((diskVolume n).view (sectorBlocks s.dma.sectors))) →
      FsStep n rejects s (.take req) { s with holder := some ⟨req, req.proc (diskVolume n), none⟩ }
  | submit {s : FsSystem} {T : DmaSystem} {req : TfsRequest} {p : TfsProc TfsAnswer} {r created : ℕ}
      {block buf : BitVec 32} {operation : GbdOperation} : s.holder = some ⟨req, p, none⟩ → created ≠ 0 →
      p.Asks block operation (Disk.bufferAt s.dma.ram buf) →
      DmaStep rejects s.dma (.driver (.prepare r block buf operation 0 created)) T →
      FsStep n rejects s (.submit r) { s with dma := T, holder := some ⟨req, p, some r⟩ }
  | finish {s : FsSystem} {T : DmaSystem} {req : TfsRequest} {p : TfsProc TfsAnswer} {r : ℕ} :
      s.holder = some ⟨req, p, some r⟩ → DmaStep rejects s.dma (.driver (.finish r)) T →
      FsStep n rejects s (.finish r) { s with
        dma := T
        holder := some ⟨req, p.resume (T.driver.calls r = .returned 1)
          (blockOf (Disk.bufferAt s.dma.ram (s.dma.driver.requests r).buf)), none⟩ }
  | release {s : FsSystem} {req : TfsRequest} {a : TfsAnswer} : s.holder = some ⟨req, .done a, none⟩ →
      FsStep n rejects s .release { s with holder := none, served := s.served ++ [(req, a)] }
  | other {s : FsSystem} {T : DmaSystem} {action : DmaAction} : s.Others action →
      DmaStep rejects s.dma action T → FsStep n rejects s (.other action) { s with dma := T }

/-- From a volume of `n` blocks that `tfstool` made on, on a disk with an idle driver. -/
abbrev FsReachable (n : ℕ) (rejects : BitVec 32 → BitVec 32 → Bool) : FsSystem → Prop :=
  Reach (fun s => DiskInit s.dma.driver ∧ s.dma.transfers = [] ∧ s.holder = none ∧ s.served = [] ∧
    ∃ volname, HoldsBlocks s.dma.sectors (tfstoolCreatevol volname)) (FsStep n rejects)

/-! ## The invariant -/

/-- The call is at `p` on the disk that the sectors hold, as if it had run alone from `d0` on. -/
def AsIf (n : ℕ) (m : BitVec 32 → Sector) (d0 : ℕ → Block) (req : TfsRequest) (p : TfsProc TfsAnswer) :
    Prop :=
  ∃ d, HoldsBlocks m d ∧ (req.proc (diskVolume n)).run none d0 = p.run none d

/-- The call runs as if alone: before its transfer it is where it was, after it at the next statement. -/
structure InProgress (n : ℕ) (s : DmaSystem) (d0 : ℕ → Block) (c : HeldCall) : Prop where
  numbered : c.proc.Numbered fun _ => True
  ready : c.waits = none → AsIf n s.sectors d0 c.request c.proc
  under : ∀ r, c.waits = some r → s.driver.Private r
  asks : ∀ r, c.waits = some r →
    c.proc.Asks (s.driver.requests r).block (s.driver.requests r).operation (s.submitted r)
  before : ∀ r, c.waits = some r → r ∉ s.driver.moved → AsIf n s.sectors d0 c.request c.proc
  after : ∀ r, c.waits = some r → ∀ e ∈ s.transfers, e.call = r →
    AsIf n s.sectors d0 c.request (c.proc.resume true (blockOf e.data))

/-- The calls that have given back the lock have led to `d0`, and the one that has it, to where it is. -/
structure FsInvariant (n : ℕ) (s : FsSystem) (d0 : ℕ → Block) : Prop where
  dma : ∃ start, DmaInvariant start s.dma
  writer : ∀ r, s.dma.driver.Pending r → r ∉ s.dma.driver.moved →
    (s.dma.driver.requests r).operation = .write → ∃ c, s.holder = some c ∧ c.waits = some r
  served : TfsServed n s.served d0
  free : s.holder = none → HoldsBlocks s.dma.sectors d0
  allowed : ∀ c, s.holder = some c → c.request.Allowed (storedFiles ((diskVolume n).view d0))
  running : ∀ c, s.holder = some c → InProgress n s.dma d0 c

section

variable {n : ℕ} {rejects : BitVec 32 → BitVec 32 → Bool} {s : FsSystem} {d0 : ℕ → Block}

/-- A transfer that was asked for takes the call to its next statement. -/
theorem AsIf.transfer {m m' : BitVec 32 → Sector} {req : TfsRequest} {p : TfsProc TfsAnswer}
    (h : AsIf n m d0 req p) (hp : p.Numbered fun _ => True) {e : Access ℕ (BitVec 32) Sector}
    {operation : GbdOperation} {data : Sector} (hasks : p.Asks e.cell operation data)
    (hwrite : e.isWrite = true ↔ operation = .write) (hdata : e.isWrite = true → e.data = data)
    (hstep : Step m e m') : AsIf n m' d0 req (p.resume true (blockOf e.data)) := by
  obtain ⟨d, hd, hrun⟩ := h
  cases p with
  | done a => exact hasks.elim
  | fault x => exact hasks.elim
  | readBlock k f =>
      obtain ⟨hcell, hoperation⟩ := hasks
      cases hstep with
      | read =>
          refine ⟨d, hd, hrun.trans ?_⟩
          have hblock := hd k hp.1
          unfold sectorBlocks at hblock
          rw [← hcell] at hblock
          show (f (some (d k))).run none d = _
          rw [hblock]
          rfl
      | write => cases (hwrite.1 rfl).symm.trans hoperation
  | writeBlock k b f =>
      obtain ⟨hcell, hoperation, hb⟩ := hasks
      cases hstep with
      | read => cases hwrite.2 hoperation
      | write =>
          refine ⟨Function.update d k b, ?_, hrun⟩
          cases hcell
          cases hb.symm.trans (hdata rfl).symm
          exact hd.write hp.1 b

/-- A step of the disk is the transfer that the call with the lock waits for, or changes no sector. -/
theorem FsInvariant.dma_cases (h : FsInvariant n s d0) {T : DmaSystem} {action : DmaAction}
    (hstep : DmaStep rejects s.dma action T) :
    (T.sectors = s.dma.sectors ∧ ∀ c r, s.holder = some c → c.waits = some r →
      (r ∈ T.driver.moved → r ∈ s.dma.driver.moved) ∧ ∀ e ∈ T.transfers, e.call = r → e ∈ s.dma.transfers) ∨
    ∃ e c, s.holder = some c ∧ c.waits = some e.call ∧ e.call ∉ s.dma.driver.moved ∧
      T.driver.moved = s.dma.driver.moved ++ [e.call] ∧ T.transfers = s.dma.transfers ++ [e] ∧
      Step s.dma.sectors e T.sectors := by
  obtain ⟨start, hdma⟩ := h.dma
  rcases hdma.step_cases hstep with ⟨hmoved, htransfers, hsectors⟩ | ⟨e, hpending, hnew, hmoved, htransfers, hdo⟩
  · refine .inl ⟨hsectors, fun c r _ _ => ⟨fun hr => hmoved ▸ hr, fun e he _ => htransfers ▸ he⟩⟩
  -- whose transfer is it
  by_cases hwaits : ∃ c, s.holder = some c ∧ c.waits = some e.call
  · obtain ⟨c, hc, hcall⟩ := hwaits
    exact .inr ⟨e, c, hc, hcall, hnew, hmoved, htransfers, hdo⟩
  · refine .inl ⟨?_, fun c r hc hr => ?_⟩
    · -- nobody else writes
      have hmem : e ∈ T.transfers := by
        rw [htransfers]
        exact List.mem_append_right _ (List.mem_singleton_self e)
      have hread : e.isWrite ≠ true := by
        intro hw
        have hwrite := ((hdma.step hstep).asked e hmem).2.1.1 hw
        obtain ⟨⟨-, -, hsame⟩, -⟩ := hdma.step_request hstep hpending
        exact hwaits (h.writer _ hpending hnew (hsame.symm.trans hwrite))
      exact hdo.read_eq hread
    · have hne : e.call ≠ r := by
        rintro rfl
        exact hwaits ⟨c, hc, hr⟩
      rw [hmoved, htransfers]
      refine ⟨fun hmem => ?_, fun x hx hcall => ?_⟩
      · rcases List.mem_append.1 hmem with hmem | hmem
        · exact hmem
        · exact absurd (List.mem_singleton.1 hmem).symm hne
      · rcases List.mem_append.1 hx with hx | hx
        · exact hx
        · cases List.mem_singleton.1 hx
          exact absurd hcall hne

/-- The call that has the lock, as long as it does not return from its request. -/
theorem FsInvariant.inProgress_step (h : FsInvariant n s d0) {T : DmaSystem} {action : DmaAction}
    (hstep : DmaStep rejects s.dma action T) {c : HeldCall} (hc : s.holder = some c)
    (hnot : ∀ r, c.waits = some r → action ≠ .driver (.finish r)) : InProgress n T d0 c := by
  obtain ⟨start, hdma⟩ := h.dma
  have hprogress := h.running c hc
  have hpending : ∀ r, c.waits = some r → s.dma.driver.Pending r := fun r hr => .inl (hprogress.under r hr)
  have hasks : ∀ r, c.waits = some r →
      c.proc.Asks (T.driver.requests r).block (T.driver.requests r).operation (T.submitted r) := by
    intro r hr
    obtain ⟨⟨hblock, -, hoperation⟩, hsubmitted⟩ := hdma.step_request hstep (hpending r hr)
    rw [hblock, hoperation, hsubmitted]
    exact hprogress.asks r hr
  have hunder : ∀ r, c.waits = some r → T.driver.Private r := fun r hr =>
    hdma.step_private hstep (hprogress.under r hr) (hnot r hr)
  rcases h.dma_cases hstep with ⟨hsectors, hkept⟩ | ⟨e, c', hc', hcall, hnew, hmoved, htransfers, hdo⟩
  · refine ⟨hprogress.numbered, ?_, hunder, hasks, fun r hr hnot => ?_, fun r hr e he hcall => ?_⟩
    · rw [hsectors]
      exact hprogress.ready
    · rw [hsectors]
      exact hprogress.before r hr fun hmem => hnot (hdma.moved_mono hstep hmem)
    · rw [hsectors]
      exact hprogress.after r hr e ((hkept c r hc hr).2 e he hcall) hcall
  · cases Option.some.inj (hc.symm.trans hc')
    refine ⟨hprogress.numbered, fun hnone => ?_, hunder, hasks, fun r hr hnot => ?_, fun r hr x hx hxr => ?_⟩
    · cases hnone.symm.trans hcall
    · cases Option.some.inj (hcall.symm.trans hr)
      rw [hmoved] at hnot
      exact absurd (List.mem_append_right _ (List.mem_singleton_self _)) hnot
    · cases Option.some.inj (hcall.symm.trans hr)
      rw [htransfers] at hx
      -- an earlier transfer was for another request
      rcases List.mem_append.1 hx with hx | hx
      · have hmem : x.call ∈ s.dma.driver.moved := hdma.moved ▸ List.mem_map_of_mem hx
        exact absurd (hxr ▸ hmem) hnew
      · cases List.mem_singleton.1 hx
        have hmem : e ∈ T.transfers := by
          rw [htransfers]
          exact List.mem_append_right _ (List.mem_singleton_self e)
        obtain ⟨hcell, hwrite, hdata⟩ := (hdma.step hstep).asked e hmem
        refine (hprogress.before _ hr hnew).transfer hprogress.numbered ?_ hwrite hdata hdo
        rw [hcell]
        exact hasks _ hr

/-- A request that is still to be written is that of the call with the lock, or new. -/
theorem FsInvariant.writer_step (h : FsInvariant n s d0) {T : DmaSystem} {action : DmaAction}
    (hstep : DmaStep rejects s.dma action T) {r : ℕ} (hr : T.driver.Pending r) (hnew : r ∉ T.driver.moved)
    (hwrite : (T.driver.requests r).operation = .write) :
    (∃ c, s.holder = some c ∧ c.waits = some r) ∨
      ∃ block buf sem created, action = .driver (.prepare r block buf .write sem created) := by
  obtain ⟨start, hdma⟩ := h.dma
  rcases hdma.step_pending hstep hr with hold | ⟨block, buf, operation, sem, created, rfl⟩
  · obtain ⟨⟨-, -, hsame⟩, -⟩ := hdma.step_request hstep hold
    exact .inl (h.writer r hold (fun hmem => hnew (hdma.moved_mono hstep hmem)) (hsame.symm.trans hwrite))
  · obtain ⟨-, hoperation, -⟩ := hstep.prepared
    cases hoperation.symm.trans hwrite
    exact .inr ⟨_, _, _, _, rfl⟩

/-- What the others do. -/
theorem FsInvariant.other (h : FsInvariant n s d0) {T : DmaSystem} {action : DmaAction}
    (hothers : s.Others action) (hstep : DmaStep rejects s.dma action T) :
    FsInvariant n { s with dma := T } d0 := by
  obtain ⟨start, hdma⟩ := h.dma
  refine ⟨⟨start, hdma.step hstep⟩, fun r hr hnew hwrite => ?_, h.served, fun hnone => ?_, h.allowed,
    fun c hc => ?_⟩
  · rcases h.writer_step hstep hr hnew hwrite with hwaits | ⟨_, _, _, _, rfl⟩
    · exact hwaits
    · cases hothers
  · rcases h.dma_cases hstep with ⟨hsectors, -⟩ | ⟨e, c, hc, -⟩
    · show HoldsBlocks T.sectors d0
      rw [hsectors]
      exact h.free hnone
    · cases hc.symm.trans hnone
  · refine h.inProgress_step hstep hc fun r hr heq => ?_
    rw [heq] at hothers
    exact hothers c hc hr

theorem FsInvariant.take (h : FsInvariant n s d0) (hfree : s.holder = none) {req : TfsRequest}
    (hreq : req.Allowed (storedFiles ((diskVolume n).view (sectorBlocks s.dma.sectors)))) :
    FsInvariant n { s with holder := some ⟨req, req.proc (diskVolume n), none⟩ } d0 := by
  have hdisk := h.free hfree
  rw [← hdisk.view_eq] at hreq
  refine ⟨h.dma, fun r hr hnew hwrite => ?_, h.served, nofun, fun c hc => ?_, fun c hc => ?_⟩
  · obtain ⟨c, hc, -⟩ := h.writer r hr hnew hwrite
    cases hc.symm.trans hfree
  · cases hc
    exact hreq
  · cases hc
    exact ⟨numbered_proc _ req, fun _ => ⟨d0, hdisk, rfl⟩, nofun, nofun,
      nofun, nofun⟩

theorem FsInvariant.submit (h : FsInvariant n s d0) {T : DmaSystem} {req : TfsRequest}
    {p : TfsProc TfsAnswer} {r created : ℕ} {block buf : BitVec 32} {operation : GbdOperation}
    (hc : s.holder = some ⟨req, p, none⟩) (hcreated : created ≠ 0)
    (hasks : p.Asks block operation (Disk.bufferAt s.dma.ram buf))
    (hstep : DmaStep rejects s.dma (.driver (.prepare r block buf operation 0 created)) T) :
    FsInvariant n { s with dma := T, holder := some ⟨req, p, some r⟩ } d0 := by
  obtain ⟨start, hdma⟩ := h.dma
  obtain ⟨hblock, hoperation, hsubmitted, hprivate⟩ := hstep.prepared
  have hprogress := h.running _ hc
  obtain ⟨hkept, hnewReq⟩ := hdma.prepare_kept hstep
  refine ⟨⟨start, hdma.step hstep⟩, fun x hx hnew hwrite => ?_, h.served, nofun, fun c hc' => ?_,
    fun c hc' => ?_⟩
  · rcases h.writer_step hstep hx hnew hwrite with ⟨c, hc', hwaits⟩ | ⟨_, _, _, _, heq⟩
    · cases Option.some.inj (hc.symm.trans hc')
      cases hwaits
    · cases heq
      exact ⟨_, rfl, rfl⟩
  · cases hc'
    exact h.allowed ⟨req, p, none⟩ hc
  · cases hc'
    refine ⟨hprogress.numbered, nofun, fun x hx => ?_, fun x hx => ?_, fun x hx _ => ?_,
      fun x hx e he hcall => ?_⟩
    · cases hx
      exact hprivate rfl hcreated
    · cases hx
      rw [hblock, hoperation, hsubmitted]
      exact hasks
    · rw [hkept]
      exact hprogress.ready rfl
    · cases hx
      exact absurd hcall (hnewReq e he)

theorem FsInvariant.finish (h : FsInvariant n s d0) {T : DmaSystem} {req : TfsRequest}
    {p : TfsProc TfsAnswer} {r : ℕ} (hc : s.holder = some ⟨req, p, some r⟩)
    (hstep : DmaStep rejects s.dma (.driver (.finish r)) T) :
    FsInvariant n { s with
      dma := T
      holder := some ⟨req, p.resume (T.driver.calls r = .returned 1)
        (blockOf (Disk.bufferAt s.dma.ram (s.dma.driver.requests r).buf)), none⟩ } d0 := by
  obtain ⟨start, hdma⟩ := h.dma
  obtain ⟨queue, hqueue⟩ := hdma.queue
  have hprogress := h.running _ hc
  have hpending : s.dma.driver.Pending r := .inl (hprogress.under r rfl)
  have hdma' := hdma.step hstep
  have hwriter := fun x => @FsInvariant.writer_step _ _ _ _ h _ _ hstep x
  have hmono := fun x => @DmaInvariant.moved_mono _ _ _ hdma _ _ hstep x
  cases hstep with
  | driver hop hfinish =>
  obtain ⟨hen, hok⟩ := hfinish
  cases hok
  obtain ⟨-, -, hraised, hcall⟩ := diskSubmitFinish_ok hqueue hen
  have hmoved : r ∈ s.dma.driver.moved := List.mem_append_left _ hraised
  obtain ⟨e, he, rfl⟩ := List.mem_map.1 (hdma.moved ▸ hmoved)
  -- the buffer has what the transfer has read
  have hresume : p.resume true (blockOf (Disk.bufferAt s.dma.ram (s.dma.driver.requests e.call).buf))
      = p.resume true (blockOf e.data) := by
    have hasks := hprogress.asks _ rfl
    cases p with
    | done a => exact hasks.elim
    | fault x => exact hasks.elim
    | writeBlock k b f => rfl
    | readBlock k f =>
        have hread : e.isWrite = false := by
          rw [Bool.eq_false_iff]
          intro hw
          cases ((hdma.asked e he).2.1.1 hw).symm.trans hasks.2
        rw [hdma.fetched e he hpending hread]
  refine ⟨⟨start, hdma'⟩, fun x hx hnew hwrite => ?_, h.served, nofun, fun c hc' => ?_, fun c hc' => ?_⟩
  · rcases hwriter x hx hnew hwrite with ⟨c, hc', hwaits⟩ | ⟨_, _, _, _, heq⟩
    · cases Option.some.inj (hc.symm.trans hc')
      cases hwaits
      exact absurd (hmono _ hmoved) hnew
    · cases heq
  · cases hc'
    exact h.allowed ⟨req, p, some e.call⟩ hc
  · cases hc'
    refine ⟨hprogress.numbered.resume .., fun _ => ?_, nofun, nofun, nofun, nofun⟩
    show AsIf n s.dma.sectors d0 req (p.resume _ _)
    rw [decide_eq_true hcall, hresume]
    exact hprogress.after _ rfl e he rfl

theorem FsInvariant.release (h : FsInvariant n s d0) {req : TfsRequest} {a : TfsAnswer}
    (hc : s.holder = some ⟨req, .done a, none⟩) :
    ∃ d, FsInvariant n { s with holder := none, served := s.served ++ [(req, a)] } d := by
  obtain ⟨d, hdisk, hrun⟩ := (h.running _ hc).ready rfl
  refine ⟨d, h.dma, fun r hr hnew hwrite => ?_, .snoc h.served ⟨h.allowed _ hc, hrun⟩, fun _ => hdisk,
    nofun, nofun⟩
  obtain ⟨c, hc', hwaits⟩ := h.writer r hr hnew hwrite
  cases Option.some.inj (hc.symm.trans hc')
  cases hwaits

theorem FsReachable.invariant (h : FsReachable n rejects s) : ∃ d0, FsInvariant n s d0 := by
  refine Reach.invariant (I := fun s => ∃ d0, FsInvariant n s d0) ?_ ?_ h
  · rintro s ⟨hinit, htransfers, hfree, hserved, volname, hdisk⟩
    have hdma := dmaInvariant_init hinit rfl htransfers
    refine ⟨_, ⟨_, hdma⟩, fun r hr => absurd hr (hinit.not_pending r), ?_, fun _ => hdisk, fun c hc => ?_, fun c hc => ?_⟩
    · rw [hserved]
      exact .nil ⟨volname, rfl⟩
    · cases hfree.symm.trans hc
    · cases hfree.symm.trans hc
  · rintro s action s' ⟨d0, hinv⟩ hstep
    cases hstep with
    | take hfree hreq => exact ⟨d0, hinv.take hfree hreq⟩
    | submit hc hcreated hasks hstep => exact ⟨d0, hinv.submit hc hcreated hasks hstep⟩
    | finish hc hstep => exact ⟨d0, hinv.finish hc hstep⟩
    | release hc => exact hinv.release hc
    | other hothers hstep => exact ⟨d0, hinv.other hothers hstep⟩

/-- The calls that have given back the lock, in the order in which they had it, were answered as by a store of
files that was empty, and when the lock is free, the disk holds the files of that store. The call that has the
lock does not fail, and as long as it waits for the disk, it can go on itself, or the disk is at work or has
an interrupt for the driver. -/
theorem fsReachable_serves (n : ℕ) (rejects : BitVec 32 → BitVec 32 → Bool) (s : FsSystem)
    (h : FsReachable n rejects s) :
    (∃ D : FileStore (min n 4096), StoreServed s.served D ∧ (s.holder = none →
      D.files = storedFiles ((diskVolume n).view (sectorBlocks s.dma.sectors)))) ∧
    ∀ c, s.holder = some c → (∀ x, c.proc ≠ .fault x) ∧ ∀ r, c.waits = some r →
      (DiskOp.locked r).Enabled s.dma.driver ∨ DiskOp.complete.Enabled s.dma.driver ∨
        (s.dma.driver.io.rirq = true ∨ s.dma.driver.io.wirq = true) ∨
        (DiskOp.finish r).Enabled s.dma.driver := by
  obtain ⟨d0, hinv⟩ := h.invariant
  obtain ⟨D, hserved, hD⟩ := hinv.served.represents
  obtain ⟨start, hdma⟩ := hinv.dma
  obtain ⟨queue, hqueue⟩ := hdma.queue
  refine ⟨⟨D, hserved, fun hfree => ?_⟩, fun c hc => ⟨fun x hx => ?_, fun r hr => ?_⟩⟩
  · rw [hD.files, (hinv.free hfree).view_eq]
  · have hprogress := hinv.running c hc
    cases hwaits : c.waits with
    | none =>
        obtain ⟨d, -, hrun⟩ := hprogress.ready hwaits
        obtain ⟨ans, d', D', hanswer, -⟩ := hD.simulates (hinv.allowed c hc)
        rw [hx] at hrun
        cases hrun.symm.trans hanswer
    | some r =>
        have hasks := hprogress.asks r hwaits
        rw [hx] at hasks
        exact hasks
  · exact hqueue.progress ((hinv.running c hc).under r hr)

/-- A new volume of 16 blocks, on a disk with an idle driver. -/
def newVolume : FsSystem where
  dma :=
    { driver := idleDisk
      sectors := fun k => sectorOf (tfstoolCreatevol (fun _ => 0) k.toNat)
      ram := fun _ => 0
      transfers := []
      submitted := fun _ _ => 0 }
  holder := none
  served := []

/-- A call that is answered at once, and then one that has submitted its first request. -/
theorem fsReachable_serves_two :
    ∃ s, FsReachable 16 (fun _ _ => false) s ∧ s.served = [(.filecount [], (vfsNotFound, []))] ∧
      ∃ c, s.holder = some c ∧ c.waits = some 64 ∧ (DiskOp.locked 64).Enabled s.dma.driver ∧
        ∃ D : FileStore 16, StoreServed s.served D := by
  have hdisk : HoldsBlocks newVolume.dma.sectors (tfstoolCreatevol fun _ => 0) := by
    intro n hn
    have htoNat : (BitVec.ofNat 32 n).toNat = n := Nat.mod_eq_of_lt hn
    show _ = blockOf (sectorOf (tfstoolCreatevol (fun _ => 0) (BitVec.ofNat 32 n).toNat))
    rw [blockOf_sectorOf, htoNat]
  have hinit : DiskInit idleDisk := ⟨rfl, rfl, ⟨rfl, rfl, rfl, rfl⟩, fun _ => rfl, rfl, rfl, rfl⟩
  have hstart : FsReachable 16 (fun _ _ => false) newVolume := .init ⟨hinit, rfl, rfl, rfl, _, hdisk⟩
  have hcounted := (hstart.step _ (@FsStep.take _ _ _ (.filecount []) rfl trivial)).step _ (.release rfl)
  have htaken := hcounted.step _ (@FsStep.take _ _ _ .getfree rfl trivial)
  have hnew : (DiskOp.prepare 64 1 0x1000 .read 0 8).Enabled idleDisk :=
    ⟨by decide, by decide, rfl, fun _ _ r hr => absurd hr (hinit.not_pending r), fun h => absurd rfl h⟩
  have hsubmitted := htaken.step _ (.submit rfl (by decide) ⟨rfl, rfl⟩
    (.prepare ⟨hnew, rfl⟩ fun r hr => absurd hr (hinit.not_pending r)))
  obtain ⟨⟨D, hserved, -⟩, -⟩ := fsReachable_serves _ _ _ hsubmitted
  exact ⟨_, hsubmitted, rfl, _, rfl, rfl, ⟨true, rfl⟩, D, hserved⟩

end

end Kudos
