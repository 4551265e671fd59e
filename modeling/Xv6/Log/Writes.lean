import Xv6.Lib.WriteSeq
import Xv6.Log.Ops

/-! # The block writes of `log.c`

Each function of `log.c` that writes to the disk, with the exact sequence of block
writes it makes.  A write changes the disk and what is seen through the cache in
the same way. -/
namespace Xv6
open Conc Function List

/-- `s'` comes from `s` by the block writes `ws`. -/
structure Wrote (s s' : Sys) (ws : List (ℕ × Block)) : Prop where
  writes : s'.writes = s.writes ++ ws
  disk : s'.disk.get = WriteSeq.apply ws s.disk.get
  view : s'.view = { s.view with disk := WriteSeq.apply ws s.content }

namespace Wrote
variable {s s' s'' : Sys} {ws us : List (ℕ × Block)}

theorem content (h : Wrote s s' ws) : s'.content = WriteSeq.apply ws s.content :=
  congrArg View.disk h.view

theorem log (h : Wrote s s' ws) : s'.log = s.log := congrArg View.log h.view

theorem refl (s : Sys) : Wrote s s [] := ⟨(append_nil _).symm,rfl,rfl⟩

theorem trans (h : Wrote s s' ws) (h' : Wrote s' s'' us) : Wrote s s'' (ws ++ us) where
  writes := by rw [h'.writes,h.writes,append_assoc]
  disk := by rw [h'.disk,h.disk,WriteSeq.apply_append]
  view := by rw [h'.view,h.view,h.content,WriteSeq.apply_append]

theorem silent (hv : s'.view = s.view) (hd : s'.disk = s.disk) (hw : s'.writes = s.writes) :
    Wrote s s' [] :=
  ⟨hw.trans (append_nil _).symm,congrArg Store.get hd,hv⟩

theorem setData_flush (s : Sys) (b : ℕ) (x : Block) :
    Wrote s ((s.setData b x).flush b) [(b,x)] := by
  have hx : (s.setData b x).content b = x := by simp
  refine ⟨?_,?_,?_⟩
  · change s.writes ++ [(b,(s.setData b x).content b)] = _
    rw [hx]
  · change (s.disk.set b ((s.setData b x).content b)).get = _
    rw [hx,Store.get_set]
    rfl
  · rw [Sys.view_flush,Sys.view_setData]
    rfl

end Wrote

section Bodies
variable {p : ℕ} {E : Stops} {c : KCfg}

/-- The common part of the bodies of `write_log` and `install_trans`. -/
theorem safe_copy {α : Type} {Q : α → KCfg → Prop} {k : Fs α} {src dst : ℕ} (hne : src ≠ dst)
    (hd : dst < FSSIZE) (hso : c.owner (.buf src) = some p) (hdo : c.owner (.buf dst) = some p)
    (h : ∀ c', Wrote c.st c'.st [(dst,c.st.content src)] →
      c'.owner = update (update c.owner (.buf src) none) (.buf dst) none →
      Conc.Safe p E k Q c') :
    Conc.Safe p E (do
      Fs.setData dst (← Fs.data src)
      Fs.bwrite dst
      Fs.brelse src
      Fs.brelse dst
      k) Q c := by
  have hdo' : update c.owner (.buf src) none (.buf dst) = some p := by
    rw [update_of_ne (by simpa using Ne.symm hne),hdo]
  rw [safe_bind,safe_data,safe_bind,safe_setData,safe_bind]
  refine safe_bwrite hd hdo ?_
  rw [safe_bind]
  refine safe_brelse hso fun c1 hs1 ho1 => ?_
  rw [safe_bind]
  refine safe_brelse (by rw [ho1]; exact hdo') fun c2 hs2 ho2 => ?_
  apply h
  · rw [hs2,hs1]
    exact Wrote.setData_flush _ _ _
  · rw [ho2,ho1]
    rfl

theorem safe_bread_bread {α : Type} {Q : α → KCfg → Prop} {k : Fs α} {a b : ℕ} (hne : a ≠ b)
    (ha : a < FSSIZE) (hb : b < FSSIZE) (hao : c.owner (.buf a) = none)
    (hbo : c.owner (.buf b) = none)
    (h : ∀ c', Wrote c.st c'.st [] →
      c'.owner = update (update c.owner (.buf a) (some p)) (.buf b) (some p) →
      Conc.Safe p E k Q c') :
    Conc.Safe p E (do Fs.bread a; Fs.bread b; k) Q c := by
  have hbo' : update c.owner (.buf a) (some p) (.buf b) = none := by
    rw [update_of_ne (by simpa using Ne.symm hne),hbo]
  rw [safe_bind]
  refine safe_bread ha hao fun c1 hv1 hd1 hw1 ho1 => ?_
  rw [safe_bind]
  refine safe_bread hb (by rw [ho1]; exact hbo') fun c2 hv2 hd2 hw2 ho2 => ?_
  apply h
  · exact Wrote.silent (hv2.trans hv1) (hd2.trans hd1) (hw2.trans hw1)
  · rw [ho2,ho1]

end Bodies

/-- The writes of the loop of `write_log`, where `g` is what the cache holds. -/
def logWrites (start : ℕ) (g : Disk) : ℕ → List ℕ → List (ℕ × Block)
  | _, [] => []
  | tail, b :: bs => (start + tail + 1,g b) :: logWrites start g (tail + 1) bs

/-- The writes of the loop of `install_trans`. -/
def installWrites (start : ℕ) (g : Disk) : ℕ → List ℕ → List (ℕ × Block)
  | _, [] => []
  | tail, b :: bs => (b,g (start + tail + 1)) :: installWrites start g (tail + 1) bs

theorem logWrites_congr {start : ℕ} {g g' : Disk} {tail : ℕ} {l : List ℕ}
    (h : ∀ b ∈ l, g b = g' b) : logWrites start g tail l = logWrites start g' tail l := by
  induction l generalizing tail with
  | nil => rfl
  | cons b bs ih =>
    rw [logWrites,logWrites,h b mem_cons_self,
      ih fun x hx => h x (mem_cons_of_mem _ hx)]

theorem installWrites_congr {start : ℕ} {g g' : Disk} {tail : ℕ} {l : List ℕ}
    (h : ∀ i, tail ≤ i → i < tail + l.length → g (start + i + 1) = g' (start + i + 1)) :
    installWrites start g tail l = installWrites start g' tail l := by
  induction l generalizing tail with
  | nil => rfl
  | cons b bs ih =>
    simp only [length_cons] at h
    rw [installWrites,installWrites,h tail (by omega) (by omega),
      ih fun i h1 h2 => h i (by omega) (by omega)]

/-- The log `l`, from index `tail` on, has its blocks in the area of `size` blocks
at `start`, and the home blocks lie outside that area and on the disk. -/
structure LogArea (start size tail : ℕ) (l : List ℕ) : Prop where
  area : start + size ≤ FSSIZE
  len : tail + l.length < size
  home : ∀ b ∈ l, b < start ∨ start + size ≤ b
  onDisk : ∀ b ∈ l, b < FSSIZE

theorem LogArea.tail {start size tail b : ℕ} {bs : List ℕ}
    (h : LogArea start size tail (b :: bs)) : LogArea start size (tail + 1) bs where
  area := h.area
  len := by have := h.len; simp only [length_cons] at this; omega
  home := fun x hx => h.home x (mem_cons_of_mem _ hx)
  onDisk := fun x hx => h.onDisk x (mem_cons_of_mem _ hx)

section Loops
variable {p : ℕ} {E : Stops} {start size : ℕ}

/-- After a turn of either loop the two buffers are free again. -/
theorem release_two {o : Owners} (ho : ∀ b, o (.buf b) = none) (a b : ℕ) :
    update (update (update (update o (.buf a) (some p))
      (.buf b) (some p)) (.buf a) none) (.buf b) none = o := by
  funext l
  by_cases hb : l = .buf b
  · subst hb; simp [ho]
  · by_cases ha : l = .buf a
    · subst ha; simp [hb,ho]
    · simp [ha,hb]

theorem safe_writeLogFrom {tail : ℕ} {l : List ℕ} {c : KCfg} (hl : LogArea start size tail l)
    (ho : ∀ b, c.owner (.buf b) = none) :
    Conc.Safe p E (Fs.writeLogFrom start tail l) (fun _ c' =>
      Wrote c.st c'.st (logWrites start c.st.content tail l) ∧ c'.owner = c.owner) c := by
  induction l generalizing tail c with
  | nil => exact ⟨Wrote.refl _,rfl⟩
  | cons b bs ih =>
    have hlen := hl.len
    have harea := hl.area
    have hhome := hl.home b mem_cons_self
    simp only [length_cons] at hlen
    have hne : start + tail + 1 ≠ b := by omega
    refine safe_bread_bread hne (by omega) (hl.onDisk b mem_cons_self) (ho _) (ho _) ?_
    intro c1 hw1 ho1
    refine safe_copy (Ne.symm hne) (by omega) ?_ ?_ ?_
    · rw [ho1,update_self]
    · rw [ho1,update_of_ne (by simpa using hne),update_self]
    intro c2 hw2 ho2
    have ho2' : c2.owner = c.owner := by
      rw [ho2,ho1,Function.update_comm (by simpa using Ne.symm hne),release_two ho]
    refine (ih hl.tail (fun x => by rw [ho2',ho])).imp ?_
    rintro _ c' ⟨hw,hco⟩
    refine ⟨?_,hco.trans ho2'⟩
    have hw2' := hw1.trans hw2
    have hcg : logWrites start c2.st.content (tail + 1) bs
        = logWrites start c.st.content (tail + 1) bs := by
      apply logWrites_congr
      intro x hx
      have := hl.home x (mem_cons_of_mem _ hx)
      rw [hw2'.content]
      exact WriteSeq.apply_of_notMem (by simp; omega) _
    rw [hcg] at hw
    rw [hw1.content] at hw2'
    exact hw2'.trans hw

theorem safe_installTransFrom {tail : ℕ} {l : List ℕ} {c : KCfg}
    (hl : LogArea start size tail l) (ho : ∀ b, c.owner (.buf b) = none) :
    Conc.Safe p E (Fs.installTransFrom start tail l) (fun _ c' =>
      Wrote c.st c'.st (installWrites start c.st.content tail l) ∧ c'.owner = c.owner) c := by
  induction l generalizing tail c with
  | nil => exact ⟨Wrote.refl _,rfl⟩
  | cons b bs ih =>
    have hlen := hl.len
    have harea := hl.area
    have hhome := hl.home b mem_cons_self
    simp only [length_cons] at hlen
    have hne : start + tail + 1 ≠ b := by omega
    refine safe_bread_bread hne (by omega) (hl.onDisk b mem_cons_self) (ho _) (ho _) ?_
    intro c1 hw1 ho1
    refine safe_copy hne (hl.onDisk b mem_cons_self) ?_ ?_ ?_
    · rw [ho1,update_of_ne (by simpa using hne),update_self]
    · rw [ho1,update_self]
    intro c2 hw2 ho2
    have ho2' : c2.owner = c.owner := by rw [ho2,ho1,release_two ho]
    refine (ih hl.tail (fun x => by rw [ho2',ho])).imp ?_
    rintro _ c' ⟨hw,hco⟩
    refine ⟨?_,hco.trans ho2'⟩
    have hw2' := hw1.trans hw2
    have hcg : installWrites start c2.st.content (tail + 1) bs
        = installWrites start c.st.content (tail + 1) bs := by
      apply installWrites_congr
      intro i h1 h2
      rw [hw2'.content]
      exact WriteSeq.apply_of_notMem (by simp; omega) _
    rw [hcg] at hw
    rw [hw1.content] at hw2'
    exact hw2'.trans hw

theorem safe_writeHead {c : KCfg} (hs : c.st.log.start < FSSIZE)
    (ho : ∀ b, c.owner (.buf b) = none) :
    Conc.Safe p E Fs.writeHead (fun _ c' =>
      Wrote c.st c'.st [(c.st.log.start,
        (c.st.content c.st.log.start).storeHead c.st.log.block)] ∧ c'.owner = c.owner) c := by
  unfold Fs.writeHead
  rw [safe_bind,safe_view,safe_bind]
  refine safe_bread hs (ho _) fun c1 hv1 hd1 hw1 ho1 => ?_
  rw [safe_bind,safe_data,safe_bind,safe_setData,safe_bind]
  have hown : c1.owner (.buf c.st.log.start) = some p := by
    rw [ho1]
    exact update_self ..
  refine safe_bwrite hs hown ?_
  refine safe_brelse hown fun c2 hs2 ho2 => ?_
  have hc1 : c1.st.content = c.st.content := congrArg View.disk hv1
  refine ⟨?_,?_⟩
  · rw [hs2,← hc1]
    exact (Wrote.silent hv1 hd1 hw1).trans (Wrote.setData_flush _ _ _)
  · rw [ho2]
    change update c1.owner _ none = _
    rw [ho1,Cfg.update_owner_none p (ho _)]

end Loops
end Xv6
