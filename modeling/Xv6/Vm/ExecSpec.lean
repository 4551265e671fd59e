import Xv6.Vm.Copy
import Xv6.Vm.ExecArgs

/-! # `exec`

A new memory with the image of the file and the arguments, or everything as it was. -/
namespace Xv6.Vm
open Result List

/-- The new memory of a process, made of pages that were free. -/
structure Executed (k₀ : Kmem) (file : List UInt8) (argv : List (List UInt8)) (n : ℕ) (k : Kmem)
    (p : Proc) : Prop where
  size : p.sz = (n + 2) * PGSIZE
  top : p.sz < KERNBASE
  backed : Backed p.pgdir
  fresh : ∀ pa ∈ p.pgdir.pages, pa ∈ k₀.free
  mapped : ∀ j, j < n + 2 → ∃ pa, p.pgdir.pte j = some ⟨pa,true,decide (j ≠ n)⟩
  empty : ∀ j, n + 2 ≤ j → j < NUSER → p.pgdir.pte j = none
  bytes : ∀ va, va < n * PGSIZE → p.pgdir.byte k va = some (imageByte file
    (progHeaders file (Elfhdr.ofBytes (file.take Elfhdr.size)).phoff
      (Elfhdr.ofBytes (file.take Elfhdr.size)).phnum) va)
  args : ∃ ptrs, ArgStack p.pgdir k p.sz p.esp argv ptrs

variable {L : Layout} {k k₀ k₁ k' : Kmem} {d : Pgdir} {p p' : Proc} {g : ℕ → UInt8}
  {path file : List UInt8} {argv : List (List UInt8)} {n va esp sz : ℕ} {ptrs : List ℕ}

/-- The old directory is freed: the new one is made of other pages. -/
theorem Made.byte_outside {S : Multiset ℕ} (h : Made k₀ k d) (hk0 : Distinct L k₀.free)
    (hS : ∀ pa ∈ k₀.free, pa ∉ S) (hout : Outside S k k') (hva : va < KERNBASE) :
    d.byte k' va = d.byte k va := by
  refine byte_congr rfl fun e he x hx => ?_
  rw [present_eq h.backed] at he
  have hmem := h.pages_sub (Owned.user_mem (page_lt_NUSER hva) he)
  exact hout.byte (hk0.page _ hmem).aligned (hS _ hmem) hx

theorem Made.freevm_old {old : Pgdir} (h : Made k₀ k d) (ho : Owned L k₀ old) :
    ∃ k', Vm.freevm L k old = .ok k' ∧ Outside old.pages k k' := by
  have hle : k.free + old.pages ≤ k₀.free + old.pages := by
    rw [← h.pages]
    exact add_le_add_left (Multiset.le_add_right _ _) _
  obtain ⟨k',hfree,-,hout⟩ := (ho.of_le ho.backed hle).freevm
  exact ⟨k',hfree,hout⟩

theorem ArgStack.congr (h : ArgStack d k sz esp argv ptrs) (hsz : sz ≤ KERNBASE)
    (hbytes : ∀ va, va < KERNBASE → d.byte k' va = d.byte k va) : ArgStack d k' sz esp argv ptrs := by
  have hat : ∀ {a l}, d.BytesAt k a l → a + l.length ≤ sz → d.BytesAt k' a l := by
    intro a l hl hle i hi
    rw [hbytes _ (by omega),hl i hi]
  refine ⟨h.length,fun i w hw => hat (h.words i w hw) ?_,fun i ptr arg hp ha => ?_,h.page,h.inside,
    h.top,h.apart⟩
  · have hi := (List.getElem?_eq_some_iff.1 hw).1
    have htop := h.top
    have hlen := h.length
    simp only [length_append,length_cons,length_nil] at hi
    change esp + 4 * i + 4 ≤ sz
    omega
  · obtain ⟨h1,h2⟩ := h.strings i ptr arg hp ha
    refine ⟨h1,hat h2 ?_⟩
    have h3 := (h.inside i ptr arg hp ha).2
    simpa using h3

/-- `exec` returns 0 with a new memory or -1 with the old one. -/
theorem exec_spec {E : Trap → Prop} (hE : E .null) (hL : L.DataOk) (ho : Owned L k p.pgdir)
    {file : Option (List UInt8)} (hfile : ∀ f ∈ file, f.length < 2 ^ 32) :
    Sat E (fun r => r.2.2 = -1 ∧ r.2.1 = p ∧ Undone k r.1 ∨
        r.2.2 = 0 ∧ ∃ f ∈ file, ∃ n, Executed k f argv n r.1 r.2.1)
      (exec L k p path file argv) := by
  have hk : Distinct L k.free := ho.distinct.mono (Multiset.le_add_right _ _)
  unfold exec
  split
  next => exact sat_ok.2 (.inl ⟨rfl,rfl,.refl k⟩)
  next f =>
    refine (image_built hL hk (hfile f rfl)).bind fun r hr => ?_
    obtain ⟨k₁,o⟩ := r
    cases o with
    | none => exact sat_pure.2 (.inl ⟨rfl,rfl,hr.1 rfl⟩)
    | some i =>
      obtain ⟨elf,d,sz⟩ := i
      obtain ⟨n,hsz,helf,himage⟩ := hr.2 _ rfl
      dsimp only at hsz helf himage ⊢
      rw [hsz]
      refine (pushStack_argStack hE hk himage).bind fun r hr => ?_
      obtain ⟨k2,o⟩ := r
      cases o with
      | none =>
        obtain ⟨k3,hfree,hundone⟩ := hr.1.freevm hk
        dsimp only
        rw [hfree]
        exact sat_ok.2 (.inl ⟨rfl,rfl,hundone⟩)
      | some esp =>
        obtain ⟨himage',ptrs,hargs⟩ := hr.2 esp rfl
        have hmade : Made k k2 d := hr.1
        obtain ⟨k3,hfree,hout⟩ := hmade.freevm_old ho
        have hbytes : ∀ va, va < KERNBASE → d.byte k3 va = d.byte k2 va := fun va hva =>
          hmade.byte_outside hk (fun pa hpa hpa' => ho.notMem hpa' hpa) hout hva
        dsimp only
        rw [hfree]
        refine sat_ok.2 (.inr ⟨rfl,f,rfl,n,rfl,himage.top,hmade.backed,
          fun pa hpa => hmade.pages_sub hpa,himage.mapped,himage.empty,fun va hva => ?_,
          ptrs,hargs.congr himage.top.le hbytes⟩)
        rw [← helf]
        refine (hbytes va ?_).trans (himage'.bytes va hva)
        have htop := himage.top
        unfold PGSIZE at *
        omega

/-- `exec` of a program without segments succeeds where the arguments fit into the stack page. -/
theorem exec_emptyElf {x : ℕ} (hdata : L.data = x * PGSIZE) (hlo : 0x80100 < x) (hhi : x < 0x8E000)
    (hfree : 0x104 ≤ k.freelist.length) (ho : Owned L k p.pgdir) (hargc : argv.length ≤ MAXARG)
    (hroom : room argv + 4 * (argv.length + 4) ≤ PGSIZE) :
    ∃ k' p', exec L k p path (some emptyElf) argv = .ok (k',p',0) := by
  have hk : Distinct L k.free := ho.distinct.mono (Multiset.le_add_right _ _)
  have hL : L.DataOk := by
    refine ⟨?_,?_,?_⟩
    · rw [hdata,Nat.mul_mod_left]
    · rw [hdata]
      exact (Nat.mul_lt_mul_right (a := PGSIZE) (b := 0x80100) (by decide)).2 hlo
    · rw [hdata]
      exact (Nat.mul_lt_mul_right (a := PGSIZE) (c := 0x8E000) (by decide)).2 hhi
  obtain ⟨k₁,elf,d,himage,-⟩ := image_emptyElf (k := k) hdata hlo hhi hfree
  obtain ⟨n,hn,-,hbuilt⟩ := ((image_built (E := fun _ => True) hL hk (by decide)).ok himage).2 _ rfl
  obtain ⟨k2,esp,hstack⟩ := pushStack_total hk hbuilt hargc hroom
  have hmade : Made k k2 d :=
    ((pushStack_argStack (E := fun _ => True) trivial hk hbuilt).ok hstack).1
  obtain ⟨k3,hfreevm,-⟩ := hmade.freevm_old ho
  rw [← hn] at hstack
  refine ⟨k3,{ sz := 2 * PGSIZE, pgdir := d, eip := elf.entry, esp := esp, name := progName path },?_⟩
  rw [exec,himage]
  dsimp only [bind,Except.bind]
  rw [hstack]
  dsimp only
  rw [hfreevm]
  rfl

theorem onePage_owned : Owned ⟨0x80108000,0x80118000⟩ freePages onePage.pgdir where
  distinct := by
    refine ⟨fun pa hpa => ?_,Multiset.nodup_add.2 ⟨freePages_distinct.nodup,?_,?_⟩⟩
    · rcases Multiset.mem_add.1 hpa with hpa | hpa
      · exact freePages_distinct.page pa hpa
      · have hpa' : pa = 0x600000 ∨ pa = 0x601000 ∨ pa = 0x602000 := by
          simpa [onePage_pages] using hpa
        rcases hpa' with rfl | rfl | rfl <;> exact ⟨by decide,by decide,by decide,by decide⟩
    · rw [onePage_pages]
      decide
    · exact Multiset.disjoint_right.2 fun hpa => onePage_inUse.notFree _ hpa
  backed := onePage_backed

theorem exec_onePage : ∃ k' p',
    exec ⟨0x80108000,0x80118000⟩ freePages onePage [] (some emptyElf) [[97]] = .ok (k',p',0) := by
  refine exec_emptyElf (x := 0x80108) rfl (by decide) (by decide) ?_ onePage_owned (by decide)
    (by decide)
  rw [freePages,length_map,length_range]

theorem exec_executed (hL : L.DataOk) (ho : Owned L k p.pgdir) (hfile : file.length < 2 ^ 32)
    (hrun : exec L k p path (some file) argv = .ok (k',p',0)) : ∃ n, Executed k file argv n k' p' := by
  rcases (exec_spec (E := fun _ => True) trivial hL ho fun f hf => Option.some.inj hf ▸ hfile).ok hrun with ⟨hc,-⟩ | ⟨-,f,hf,n,h⟩
  · exact absurd hc (show (0 : ℤ) ≠ -1 by decide)
  · exact ⟨n,Option.some.inj hf ▸ h⟩

/-- `exec` lays out the arguments in the stack page. -/
theorem exec_lays_out_arguments (hL : L.DataOk) (ho : Owned L k p.pgdir) (hfile : file.length < 2 ^ 32)
    (hrun : exec L k p path (some file) argv = .ok (k',p',0)) :
    ∃ ptrs, ArgStack p'.pgdir k' p'.sz p'.esp argv ptrs := by
  obtain ⟨n,h⟩ := exec_executed hL ho hfile hrun
  exact h.args

theorem exec_lays_out_arguments_onePage : ∃ k' p',
    exec ⟨0x80108000,0x80118000⟩ freePages onePage [] (some emptyElf) [[97]] = .ok (k',p',0) ∧
      ∃ ptrs, ArgStack p'.pgdir k' p'.sz p'.esp [[97]] ptrs := by
  obtain ⟨k',p',hrun⟩ := exec_onePage
  exact ⟨k',p',hrun,exec_lays_out_arguments ⟨by decide,by decide,by decide⟩ onePage_owned
    (by decide) hrun⟩

end Xv6.Vm
