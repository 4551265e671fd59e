import Xv6.Fs.BlockSpec
import Xv6.Sys.Ops

/-! # What a transaction leaves

`commit` copies blocks into the log and back, so that nothing changes outside of the log.
A process that is alone in a transaction starts and ends with an empty log. -/
namespace Xv6
open Conc Mkfs Function List

def SameData (d d' : Disk) : Prop :=
  ∀ b, b < logstart ∨ logstart + nlog ≤ b → d' b = d b

namespace SameData
variable {d d' d'' : Disk}

theorem refl : SameData d d := fun _ _ => rfl

theorem trans (h : SameData d d') (h' : SameData d' d'') : SameData d d'' :=
  fun b hb => (h' b hb).trans (h b hb)

theorem log {b : ℕ} (x : Block) (hlo : logstart ≤ b) (hhi : b < logstart + nlog) :
    SameData d (update d b x) := by
  intro c hc
  apply update_of_ne
  omega

theorem data (h : SameData d d') {b : ℕ} (hb : 32 ≤ b) : d' b = d b := h b (.inr hb)

theorem inodeAt_eq (h : SameData d d') : inodeAt d' = inodeAt d :=
  inodeAt_congr fun _ hb _ => h.data hb

theorem bitAt_eq (h : SameData d d') : bitAt d' = bitAt d := by
  funext b
  rw [bitAt,bitAt,bmapstart_eq,h.data (by omega)]

theorem stored_eq (h : SameData d d') (hs : Owned (inodeAt d) d) :
    stored (inodeAt d) d' = stored (inodeAt d) d := by
  funext s
  unfold stored
  by_cases hi : s.1 < Mkfs.NINODES ∧ (inodeAt d s.1).type ≠ 0
  · rw [if_pos hi,if_pos hi]
    apply ptr_congr
    intro ha
    have := hs.ptr_area hi.1 hi.2 (k := NDIRECT) (by rw [ptr_direct le_rfl]; exact toNat_ne_zero ha)
    rw [ptr_direct le_rfl] at this
    exact h.data (by omega)
  · rw [if_neg hi,if_neg hi]

theorem sound (h : SameData d d') (hs : Sound (inodeAt d) d) :
    Sound (inodeAt d') d' ∧ files d' = files d := by
  have hblk : ∀ i, i < Mkfs.NINODES → (inodeAt d i).type ≠ 0 → ∀ k,
      (inodeAt d i).blk d' k = (inodeAt d i).blk d k := by
    intro i hi ht k
    rw [blk_stored hi ht,blk_stored hi ht,h.stored_eq hs.owned]
  rw [h.inodeAt_eq]
  refine ⟨⟨hs.owned.congr (by decide) (fun s => congrFun (h.stored_eq hs.owned) s) fun b _ =>
    congrFun h.bitAt_eq b,fun i hi ht k hk => ?_⟩,?_⟩
  · rw [hblk i hi ht]
    exact hs.mapped i hi ht k hk
  · funext i
    unfold files
    rw [h.inodeAt_eq]
    by_cases ht : (inodeAt d i).type = 0
    · rw [if_pos ht,if_pos ht]
    · have hi := lt_NINODES_of_type ht
      rw [if_neg ht,if_neg ht]
      unfold nodeOf
      congr 2
      funext x
      unfold Dinode.byteAt
      rw [hblk i hi ht]
      by_cases h0 : (inodeAt d i).blk d (x / BSIZE) = 0
      · rw [if_pos h0,if_pos h0]
      · rw [if_neg h0,if_neg h0,h.data (by have := blk_area hs.owned hi ht h0; omega)]

end SameData

namespace Fs
section Commit
variable {p : ℕ} {E : Stops} {Q : Post Unit}
  {v : View} {o : Owners} {tail : ℕ} {bs : List ℕ}

/-- The loop of `write_log`: block `j` of the list is copied to place `tail + j` of the log. -/
theorem Safe.writeLogFrom (hl : LogArea logstart nlog tail bs)
    (ho : ∀ b, o (.buf b) = none)
    (h : ∀ d', SameData v.disk d' → (∀ b, b ≤ logstart + tail → d' b = v.disk b) →
      (∀ j b, bs[j]? = some b → d' (logstart + (tail + j) + 1) = v.disk b) →
      Q () { v with disk := d' } o) : Safe p E (Fs.writeLogFrom logstart tail bs) Q v o := by
  induction bs generalizing v tail with
  | nil => exact pure (h v.disk .refl (fun _ _ => rfl) fun _ _ hj => nomatch hj)
  | cons b bs ih =>
    have hlen := hl.len
    rw [length_cons] at hlen
    have hhome := hl.home b mem_cons_self
    have harea := hl.area
    have hL : Lock.buf b ≠ .buf (logstart + tail + 1) := by
      rw [Ne,Lock.buf.injEq]
      omega
    have hob : update o (.buf (logstart + tail + 1)) (some p) (.buf b) = none := by
      rw [update_of_ne hL,ho]
    refine bind (bread (by omega) (ho _) ?_)
    refine bind (bread (hl.onDisk b mem_cons_self) hob ?_)
    refine data_seq ?_
    refine bind (setData ?_)
    refine bind (bwrite (by omega) (by rw [update_of_ne hL.symm,update_self]) ?_)
    refine bind (release hob ?_)
    refine bind (release (ho _) ?_)
    refine ih hl.tail fun d' hd hlow hcopy => ?_
    refine h d' ((SameData.log _ (by omega) (by omega)).trans hd) (fun c hc => ?_) fun j c hj => ?_
    · rw [hlow c (by omega)]
      exact update_of_ne (by omega) ..
    · cases j with
      | zero =>
        obtain rfl : b = c := Option.some.inj hj
        rw [hlow _ (by omega),Nat.add_zero]
        exact update_self ..
      | succ j =>
        have hmem : c ∈ bs := mem_of_getElem? hj
        have := hl.home c (mem_cons_of_mem _ hmem)
        rw [show tail + (j + 1) = tail + 1 + j by omega,hcopy j c hj]
        exact update_of_ne (by omega) ..

/-- The loop of `install_trans` changes nothing, as the log holds what is in the blocks. -/
theorem Safe.installTransFrom (hl : LogArea logstart nlog tail bs)
    (ho : ∀ b, o (.buf b) = none)
    (hcopy : ∀ j b, bs[j]? = some b → v.disk (logstart + (tail + j) + 1) = v.disk b)
    (h : Q () v o) : Safe p E (Fs.installTransFrom logstart tail bs) Q v o := by
  induction bs generalizing tail with
  | nil => exact pure h
  | cons b bs ih =>
    have hlen := hl.len
    rw [length_cons] at hlen
    have hhome := hl.home b mem_cons_self
    have harea := hl.area
    have hL : Lock.buf b ≠ .buf (logstart + tail + 1) := by
      rw [Ne,Lock.buf.injEq]
      omega
    have hob : update o (.buf (logstart + tail + 1)) (some p) (.buf b) = none := by
      rw [update_of_ne hL,ho]
    refine bind (bread (by omega) (ho _) ?_)
    refine bind (bread (hl.onDisk b mem_cons_self) hob ?_)
    refine data_seq ?_
    have hsame : update v.disk b (v.disk (logstart + tail + 1)) = v.disk := by
      rw [show logstart + tail + 1 = logstart + (tail + 0) + 1 from rfl,hcopy 0 b rfl,
        Function.update_eq_self]
    refine bind (setData ?_)
    rw [hsame]
    refine bind (bwrite (hl.onDisk b mem_cons_self) (update_self ..) ?_)
    refine bind (brelse (by rw [update_of_ne hL.symm,update_self]) ?_)
    rw [Function.update_comm hL,Cfg.update_owner_none p (ho _)]
    refine bind (release (ho _) ?_)
    refine ih hl.tail (fun j c hj => ?_)
    rw [show tail + 1 + j = tail + (j + 1) by omega]
    exact hcopy (j + 1) c hj

theorem Safe.writeHead (hs : v.log.start = logstart) (ho : ∀ b, o (.buf b) = none)
    (h : ∀ x, Q () { v with disk := update v.disk logstart x } o) :
    Safe p E Fs.writeHead Q v o := by
  refine view_seq ?_
  dsimp only
  rw [hs]
  refine bind (bread (by decide) (ho _) ?_)
  refine data_seq ?_
  refine bind (setData ?_)
  refine bind (bwrite (by decide) (update_self ..) ?_)
  refine release (ho _) ?_
  exact h _

theorem Safe.commit (hl : LogOk v.log) (ho : ∀ b, o (.buf b) = none)
    (h : ∀ d', SameData v.disk d' → Q () { v with disk := d', log := v.log.clear } o) :
    Safe p E Fs.commit Q v o := by
  refine view_seq ?_
  refine ite (fun hn => ?_) fun hn => ?_
  · refine bind (view_seq ?_)
    dsimp only
    rw [hl.start]
    refine writeLogFrom hl.area ho fun d1 h1 _ hcopy => ?_
    refine bind (writeHead hl.start ho fun x => ?_)
    unfold Fs.installTrans
    refine bind (view_seq ?_)
    dsimp only
    rw [hl.start]
    have h2 : SameData d1 (update d1 logstart x) := .log x le_rfl (by decide)
    refine installTransFrom hl.area ho (fun j b hj => ?_) ?_
    · have hhome := hl.area.home b (mem_of_getElem? hj)
      change update d1 logstart x (logstart + (0 + j) + 1) = update d1 logstart x b
      rw [update_of_ne (by omega),hcopy j b hj,h2 b hhome,h1 b hhome]
    refine bind (logSection ?_)
    refine writeHead hl.start ho fun y => ?_
    exact h _ ((h1.trans h2).trans (.log y le_rfl (by decide)))
  · have hnil : v.log.clear = v.log := by
      have : v.log.block = [] := eq_nil_of_length_eq_zero (by unfold Log.n at hn; omega)
      unfold Log.clear
      rw [← this]
    have := h v.disk .refl
    rw [hnil] at this
    exact pure this

def emptyLog : Log := ⟨logstart,nlog,0,false,[]⟩

/-- The log when one process is in a transaction that has written nothing. -/
def openLog : Log := { emptyLog with outstanding := 1 }

theorem Safe.endOp (hl : LogOk v.log) (ho : ∀ b, o (.buf b) = none) (hout : v.log.outstanding = 1)
    (hc : v.log.committing = false)
    (h : ∀ d', SameData v.disk d' → Q () { v with disk := d', log := emptyLog } o) :
    Safe p E Fs.endOp Q v o := by
  refine bind (logSection ?_)
  unfold Fs.endOpSection
  rw [Log.endOp_last hc hout]
  refine bind (commit ⟨hl.start,hl.size,hl.area⟩ ho fun d' hd => ?_)
  refine logSection ?_
  have hempty : Log.endCommit (Log.clear { v.log with outstanding := 0, committing := true })
      = emptyLog := by
    unfold Log.endCommit Log.clear emptyLog
    rw [hl.start,hl.size]
  rw [hempty]
  exact h d' hd

/-- A process that is alone in a transaction. -/
theorem Safe.transaction {α : Type} {x : Fs α} {Q : Post α} (hlog : v.log = emptyLog)
    (h : Safe p E x (fun r v' o' => LogOk v'.log ∧ v'.log.outstanding = 1 ∧
      v'.log.committing = false ∧ (∀ b, o' (.buf b) = none) ∧
      ∀ d', SameData v'.disk d' → Q r { v' with disk := d', log := emptyLog } o')
      { v with log := openLog } o) : Safe p E (Fs.transaction x) Q v o := by
  have hbegin : Safe p E (Fs.awaitLog Log.beginOp)
      (fun _ v' o' => v' = { v with log := openLog } ∧ o' = o) v o := by
    intro c hv ho
    subst hv ho
    have hopen : Log.beginOp c.st.log = some openLog := by
      rw [show c.st.log = emptyLog from hlog]
      decide
    refine (safe_await _).mpr ⟨fun hn => ?_,fun s hs => ?_⟩
    · rw [hopen] at hn
      cases hn
    · rw [hopen] at hs
      cases hs
      exact ⟨rfl,rfl⟩
  refine hbegin.seq ?_
  rintro _ _ _ ⟨rfl,rfl⟩
  refine h.seq fun r v' o' hr => ?_
  obtain ⟨hok,hout,hc,hb,hq⟩ := hr
  exact bind (endOp hok hb hout hc fun d' hd => pure (hq d' hd))

end Commit
end Fs
end Xv6
