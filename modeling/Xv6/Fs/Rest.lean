import Xv6.Fs.Starts
import Xv6.Fs.TransactionSpec

/-! # From rest to rest

A system call starts where no transaction is open, and leaves such a state. -/
namespace Xv6
open Conc

theorem logOk_openLog : LogOk Fs.openLog :=
  ⟨rfl,rfl,by decide,show 0 + 0 < Mkfs.nlog by decide,nofun,nofun⟩

theorem logOk_emptyLog : LogOk Fs.emptyLog :=
  ⟨rfl,rfl,by decide,show 0 + 0 < Mkfs.nlog by decide,nofun,nofun⟩

/-- The state in the transaction that has just been opened. -/
def View.begun (v : View) : View := { v with log := Fs.openLog }

/-- The state when the transaction has been committed and the disk is `d`. -/
def View.ended (v : View) (d : Disk) : View := { v with disk := d, log := Fs.emptyLog }

section Rest
variable {E : Stops} {v v' : View} {d : Disk} {p k i : ℕ} {path : List UInt8}

theorem Holds.of_inode (h : Holds v k i) (hi : v'.inode = v.inode) : Holds v' k i :=
  ⟨h.slot,hi ▸ h.ref,hi ▸ h.inum⟩

/-- Nothing but the inodes, on disk and in the cache, matters. -/
theorem Core.of_inodes (h : Core v) (hr : Ready v') (hs : Sound (inodeAt v'.disk) v'.disk)
    (hd : inodeAt v'.disk = inodeAt v.disk) (hi : v'.inode = v.inode) : Core v' where
  ready := hr
  sound := hs
  ref := fun k hk => hi ▸ h.ref k hk
  inum := fun k i hk => h.inum k i (hk.of_inode hi.symm)
  uniq := fun k k' i hk hk' => h.uniq k k' i (hk.of_inode hi.symm) (hk'.of_inode hi.symm)
  copy := by
    intro k i hk
    rw [hi,hd]
    exact h.copy k i (hk.of_inode hi.symm)

theorem Core.begun (h : Core v) : Core v.begun :=
  h.of_inodes ⟨h.ready.sb,h.ready.block,logOk_openLog⟩ h.sound rfl rfl

theorem Core.ended (h : Core v) (hd : SameData v.disk d) : Core (v.ended d) := by
  refine h.of_inodes ⟨h.ready.sb,?_,logOk_emptyLog⟩ (hd.sound h.sound).1 hd.inodeAt_eq rfl
  change Superblock.ofBlock (d 1) = Mkfs.sb
  rw [hd 1 (.inl (by decide))]
  exact h.ready.block

theorem Fs.startsAt_begun {s : ℕ} : StartsAt v.begun p path s ↔ StartsAt v p path s := by
  unfold StartsAt
  split
  · exact Iff.rfl
  · exact ⟨fun h => h.of_inode rfl,fun h => h.of_inode rfl⟩

/-- A process with a working directory can resolve every path. -/
theorem Fs.HasStart.of_cwd (h : ∃ i, Holds v ((v.proc p).cwd.getD 0) i)
    (hE : E (.fail .ilockNoType)) : HasStart E v.begun p path where
  start := by
    obtain ⟨i,hi⟩ := h
    unfold StartsAt
    by_cases hroot : path.head? = some 47
    · exact ⟨ROOTINO,by rw [if_pos hroot]⟩
    · exact ⟨i,by rw [if_neg hroot]; exact hi.of_inode rfl⟩
  alloc := fun _ _ => .inl hE

end Rest

/-- The files are a matter of the inodes and of the data blocks. -/
theorem files_of_blocks {d d' : Disk} (hs : Owned (inodeAt d) d) (hi : inodeAt d' = inodeAt d)
    (hb : ∀ b, 58 ≤ b → d' b = d b) : files d' = files d := by
  funext i
  refine files_congr (congrFun hi i) fun ht x => ?_
  have hlt := lt_NINODES_of_type ht
  have hblk : ∀ m, (inodeAt d i).blk d' m = (inodeAt d i).blk d m := fun m => ptr_congr fun ha => by
    have harea := hs.ptr_area hlt ht (k := NDIRECT) (by
      rw [ptr_direct le_rfl]
      exact toNat_ne_zero ha)
    rw [ptr_direct le_rfl] at harea
    exact hb _ (by omega)
  unfold Dinode.byteAt
  rw [hblk]
  by_cases h0 : (inodeAt d i).blk d (x / BSIZE) = 0
  · rw [if_pos h0,if_pos h0]
  · rw [if_neg h0,if_neg h0,hb _ (by have := blk_area hs hlt ht h0; omega)]

theorem Frame.join {A B : Finset ℕ} {v v' v'' : View} (h : Frame A v v') (h' : Frame B v' v'') :
    Frame (A ∪ B) v v'' :=
  (h.mono Finset.subset_union_left).trans (h'.mono Finset.subset_union_right)

/-- The inodes, the free map, the contents of the files and the references are as in `v₀`. -/
structure Restored (v₀ v : View) : Prop where
  core : Core v
  frame : ∃ A, Frame A v₀ v
  inodes : inodeAt v.disk = inodeAt v₀.disk
  blocks : ∀ b, 58 ≤ b → v.disk b = v₀.disk b
  refs : ∀ a, refs v a = refs v₀ a
  keep : ∀ k i, Holds v₀ k i → Holds v k i
  valid : ∀ k i, Holds v₀ k i → (v₀.inode k).valid = true → (v.inode k).valid = true

namespace Restored
variable {v₀ v : View}

theorem of_walk (h : Walk v₀ v 0) (hq : Quiet v₀) : Restored v₀ v := by
  have hd : v.disk = v₀.disk := by rw [h.quiet hq]
  refine ⟨h.core,⟨metaBlocks,h.frame⟩,by rw [hd],fun b _ => by rw [hd],fun a => ?_,h.keep,
    h.valid⟩
  rw [h.refs,Pi.zero_apply,add_zero]

theorem files (h : Restored v₀ v) (hc : Core v₀) : Xv6.files v.disk = Xv6.files v₀.disk :=
  files_of_blocks hc.sound.owned h.inodes h.blocks

end Restored

namespace Fs
variable {α : Type} {p : ℕ} {E : Stops} {v : View} {x : Fs α}
  {Q : Post α}

/-- A process alone in a transaction, without locks at its end. -/
theorem Safe.operation {o : Owners} (hlog : v.log = emptyLog)
    (h : Safe p E x (fun r v' o' => Core v' ∧ (∃ A, Logs A openLog v'.log) ∧ o' = held p ∅ ∧
      ∀ d, SameData v'.disk d → Core (v'.ended d) → Q r (v'.ended d) (held p ∅)) v.begun o) :
    Safe p E (Fs.transaction x) Q v o := by
  refine transaction hlog (h.imp fun r v' o' hr => ?_)
  obtain ⟨hc,⟨A,hl⟩,rfl,hq⟩ := hr
  exact ⟨hc.ready.log,hl.outstanding,hl.committing,held_buf,fun d hd => hq d hd (hc.ended hd)⟩

end Fs
end Xv6
