import Xv6.Vm.Mapped
import Xv6.Vm.Syscall

/-! # The argument stack of `exec`

`copyout` writes to user pages only, and reads no entry through `NULL` as long as an argument does not
take the stack pointer below the device space: the subtraction wraps around at 0, and between the
kernel and the device space there are no page tables. -/
namespace Xv6.Vm
open Function Result List Option

variable {L : Layout} {k : Kmem} {d : Pgdir} {sz sp : ℕ}

theorem loadLoop_notNull (d : Pgdir) (file : List UInt8) (addr offset sz : ℕ) (is : List ℕ)
    (k : Kmem) : Sat NotNull (fun _ => True) (loadLoop d file addr offset sz is k) := by
  induction is generalizing k with
  | nil => exact sat_ok.2 trivial
  | cons i rest ih =>
    unfold loadLoop
    split
    next =>
      dsimp only
      generalize (if sz - i < PGSIZE then sz - i else PGSIZE) = n
      split
      next => exact sat_ok.2 trivial
      next =>
        split
        next => exact ih _
        next => exact sat_ok.2 trivial
    next => exact sat_error.2 (by rintro ⟨⟩)

theorem loaduvm_notNull (k : Kmem) (d : Pgdir) (addr : ℕ) (file : List UInt8) (offset sz : ℕ) :
    Sat NotNull (fun _ => True) (loaduvm k d addr file offset sz) := by
  unfold loaduvm
  split
  · exact sat_error.2 nofun
  · exact loadLoop_notNull ..

theorem clearpteu_space (h : Space d sz) (uva : ℕ) :
    Sat NotNull (fun d' => Space d' sz) (clearpteu d uva) := by
  unfold clearpteu
  split
  next hw =>
    refine sat_ok.2 ⟨h.backed.setEntry hw _,fun n hn => ?_,fun n hn hn' => ?_⟩
    · by_cases heq : n = uva / PGSIZE
      · rw [heq] at hn ⊢
        rw [setEntry_pte,update_self]
        simpa [Pgdir.entry] using h.user _ hn
      · rw [setEntry_pte,update_of_ne heq]
        exact h.user n hn
    · obtain ⟨htable,hu⟩ := h.dev n hn hn'
      refine ⟨htable,fun e he => ?_⟩
      by_cases heq : n = uva / PGSIZE
      · rw [heq,setEntry_pte,update_self] at he
        obtain ⟨e',-,rfl⟩ := map_eq_some_iff.1 he
        rfl
      · rw [setEntry_pte,update_of_ne heq] at he
        exact hu e he
  next => exact sat_error.2 (by rintro ⟨⟩)

/-- The memory of the program lies below the kernel. -/
def Below (d : Pgdir) (sz : ℕ) : Prop := Space d sz ∧ sz < KERNBASE

theorem userStack_space (k : Kmem) (h : Below d sz) :
    Sat NotNull (Ready Below) (userStack L k d sz) := by
  have hspace : Sat NotNull (Ready Space) (userStack L k d sz) := by
    refine (allocuvm_space L k (h.1.roundup h.2) _).bind fun r hr => ?_
    split
    next => exact sat_pure.2 (ready_none _ _)
    next hne => exact (clearpteu_space (hr hne) _).bind fun d hd => sat_pure.2 (ready_some _ hd)
  exact (hspace.and (userStack_size k d h.2)).mono fun r hr sz hsz => ⟨hr.1 sz hsz,hr.2 sz hsz⟩

/-- The line of `kmap` for the device space maps it, and not for users. -/
theorem devspace_space (k : Kmem) (h : Backed d) :
    Sat NotNull (fun r => r.2.2 = true → Space r.2.1 0)
      (mappages k d DEVSPACE ((0 + 2 ^ 32 - DEVSPACE) % 2 ^ 32) DEVSPACE true false) := by
  have hmap : mappages k d DEVSPACE ((0 + 2 ^ 32 - DEVSPACE) % 2 ^ 32) DEVSPACE true false =
      mapLoop (0xFFFFF * PGSIZE) true false (2 ^ 20) k d (0xFE000 * PGSIZE) DEVSPACE :=
    mappages_eq (n := 0xFE000) 0x2000 (by decide) (by decide)
  rw [hmap]
  refine (mapLoop_spec k _ h (by decide) (by decide) (by decide) fun _ _ _ _ => nofun).mono
    fun r hr hdone => ?_
  refine ⟨hr.backed,fun n hn => absurd hn (Nat.not_lt_zero _),fun n hn hn' => ?_⟩
  obtain ⟨pa,hpa,-⟩ := hr.mapped hdone n hn (by omega)
  refine ⟨hr.backed n (hpa ▸ some_ne_none _),fun e he => ?_⟩
  rw [hpa] at he
  exact Option.some.inj he ▸ rfl

theorem kmapLoop_space (ms : List Kmap) (k : Kmem) (h : Backed d) :
    Sat NotNull (fun r => ∀ d' ∈ r.2, Space d' 0)
      (kmapLoop L (ms ++ [⟨DEVSPACE,DEVSPACE,0,true⟩]) k d) := by
  induction ms generalizing k d with
  | nil =>
    rw [nil_append]
    refine (devspace_space k h).bind fun r hr => ?_
    split
    next hdone =>
      refine sat_ok.2 fun d' hd' => ?_
      exact Option.some.inj hd' ▸ hr hdone
    next => exact (freevm_sat kfree_notNull ..).bind fun k _ => sat_pure.2 nofun
  | cons m ms ih =>
    rw [cons_append]
    refine (mapLoop_weak h _ _).bind fun r hr => ?_
    split
    next => exact ih _ hr.1
    next => exact (freevm_sat kfree_notNull ..).bind fun k _ => sat_pure.2 nofun

theorem setupkvm_space (L : Layout) (k : Kmem) :
    Sat NotNull (fun r => ∀ d ∈ r.2, Space d 0) (setupkvm L k) := by
  unfold setupkvm
  split
  next => exact sat_ok.2 nofun
  next => exact kmapLoop_space [_, _, _] _ fun n hn => absurd rfl hn

theorem keeps_space (L : Layout) : Keeps L NotNull Below where
  setup k := (setupkvm_space L k).mono fun _ hr d hd => ⟨hr d hd,KERNBASE_pos⟩
  alloc k _ _ newsz h := ((allocuvm_space L k h.1 newsz).and (allocuvm_size (.inl h.2))).mono
    fun _ hr h0 => ⟨hr.1 h0,hr.2⟩
  load := loaduvm_notNull
  stack k _ _ h := userStack_space k h
  free := freevm_sat kfree_notNull L

/-- The bytes of a page that users can reach. -/
def UserByte (d : Pgdir) (pa : ℕ) : Prop :=
  ∃ n e, d.pte n = some e ∧ e.u = true ∧ e.addr ≤ pa ∧ pa < e.addr + PGSIZE

/-- Only user pages have changed. -/
def Frame (d : Pgdir) (k k' : Kmem) : Prop := ∀ pa, ¬ UserByte d pa → k'.mem pa = k.mem pa

theorem Frame.refl (d : Pgdir) (k : Kmem) : Frame d k k := fun _ _ => rfl

theorem Frame.trans {k' k'' : Kmem} (h : Frame d k k') (h' : Frame d k' k'') : Frame d k k'' :=
  fun pa hpa => (h' pa hpa).trans (h pa hpa)

/-- The tables of the addresses from `va` on are there. -/
def Reachable (d : Pgdir) (va len : ℕ) : Prop :=
  ∀ a, va ≤ a → a < va + len → a < 2 ^ 32 ∧ d.walk a = true

theorem PDX_rounddown (va : ℕ) : PDX (PGROUNDDOWN va) = PDX va := by
  unfold PDX PGROUNDDOWN
  rw [Nat.mul_div_cancel _ (by decide)]

theorem walk_rounddown (va : ℕ) : d.walk (PGROUNDDOWN va) = d.walk va := by
  unfold Pgdir.walk
  rw [PDX_rounddown]

def userPage (d : Pgdir) (va : ℕ) : Option ℕ :=
  (d.entry (PGROUNDDOWN va)).bind fun e => if e.u then some e.addr else none

theorem uva2ka_spec {E : Trap → Prop} {va : ℕ} (h : E .null ∨ d.walk va = true) :
    Sat E (fun o => o = userPage d va) (uva2ka d (PGROUNDDOWN va)) := by
  unfold uva2ka
  rw [walk_rounddown]
  split
  next => exact sat_ok.2 rfl
  next hw => exact sat_error.2 (h.resolve_right hw)

/-- A round of `copyout` stays in the page. -/
theorem frame_memmove {va pa0 : ℕ} (buf : List UInt8) (h : userPage d va = some pa0)
    (hlen : buf.length ≤ PGSIZE - (va - PGROUNDDOWN va)) (k : Kmem) :
    Frame d k (k.memmove (pa0 + (va - PGROUNDDOWN va)) buf) := by
  obtain ⟨e,he,hu⟩ := bind_eq_some_iff.1 h
  split at hu
  next hue =>
    cases hu
    intro pa hpa
    refine if_neg fun hin => hpa ⟨_,e,he,hue,by omega,?_⟩
    have : va - PGROUNDDOWN va < PGSIZE := by
      omega
    omega
  next => cases hu

theorem Reachable.next {va len n : ℕ} (h : Reachable d va len)
    (hn : n = min (PGSIZE - (va - PGROUNDDOWN va)) len) :
    Reachable d ((PGROUNDDOWN va + PGSIZE) % 2 ^ 32) (len - n) := by
  intro a ha ha'
  have hoff : PGROUNDDOWN va ≤ va ∧ va - PGROUNDDOWN va < PGSIZE := by
    unfold PGROUNDDOWN PGSIZE
    omega
  have hnext : PGROUNDDOWN va + PGSIZE = va + n := by omega
  have hlt := (h (va + n) (by omega) (by omega)).1
  rw [hnext,Nat.mod_eq_of_lt hlt] at ha ha'
  exact h a (by omega) (by omega)

/-- `copyout` writes to user pages only, and does not read through `NULL` where the tables are. -/
theorem copyLoopOut_frame {E : Trap → Prop} {fuel va : ℕ} {buf : List UInt8} (k : Kmem)
    (h : E .null ∨ Reachable d va buf.length) :
    Sat E (fun r => Frame d k r.1) (copyLoopOut d fuel k va buf) := by
  induction fuel generalizing k va buf with
  | zero => exact sat_ok.2 (.refl d k)
  | succ fuel ih =>
    unfold copyLoopOut
    split
    next => exact sat_ok.2 (.refl d k)
    next hbuf =>
      have hpos : 0 < buf.length := length_pos_iff.2 hbuf
      have hwalk : E .null ∨ d.walk va = true :=
        h.imp_right fun hreach => (hreach va (Nat.le_refl va) (by omega)).2
      refine (uva2ka_spec hwalk).bind fun o ho => ?_
      split
      next => exact sat_pure.2 (.refl d k)
      next pa0 =>
        generalize hn : min (PGSIZE - (va - PGROUNDDOWN va)) buf.length = n
        have hframe := frame_memmove (buf.take n) ho.symm
          (by rw [length_take]; omega) k
        refine (ih _ (h.imp_right fun hreach => ?_)).mono fun r hr => hframe.trans hr
        rw [length_drop]
        exact hreach.next hn.symm

theorem copyout_frame {E : Trap → Prop} (va : ℕ) (buf : List UInt8) (k : Kmem)
    (h : E .null ∨ Reachable d va buf.length) :
    Sat E (fun r => Frame d k r.1) (copyout k d va buf) :=
  copyLoopOut_frame k h

/-- `copyout` to a page that users cannot reach fails. -/
theorem copyout_refused {va : ℕ} {buf : List UInt8} (k : Kmem) (hw : d.walk va = true)
    (hu : userPage d va = none) (hbuf : buf ≠ []) : copyout k d va buf = .ok (k,false) := by
  obtain ⟨n,hn⟩ : ∃ n, buf.length = n + 1 :=
    ⟨buf.length - 1,by have := length_pos_iff.2 hbuf; omega⟩
  have hka : uva2ka d (PGROUNDDOWN va) = .ok (userPage d va) := by
    rw [uva2ka,walk_rounddown,if_pos hw]
    rfl
  rw [copyout,hn,copyLoopOut,if_neg hbuf]
  dsimp only
  rw [hka,hu]
  rfl

theorem Space.reachable (h : Space d sz) (hsz : sz ≤ KERNBASE) {va len : ℕ} (hle : va + len ≤ sz) :
    Reachable d va len := by
  intro a ha ha'
  refine ⟨by unfold KERNBASE at hsz; omega,walk_iff.2 ?_⟩
  refine h.backed (a / PGSIZE) (h.user _ ?_)
  exact Nat.lt_of_le_of_lt (Nat.div_mul_le_self a PGSIZE) (by omega)

theorem Space.refused (h : Space d sz) {va : ℕ} (hlo : DEVSPACE ≤ va) (hhi : va < 2 ^ 32)
    {buf : List UInt8} (k : Kmem) (hbuf : buf ≠ []) : copyout k d va buf = .ok (k,false) := by
  have hlo' : DEVSPACE / PGSIZE ≤ va / PGSIZE := Nat.div_le_div_right hlo
  have hhi' : va / PGSIZE < 2 ^ 20 := by
    unfold PGSIZE
    omega
  obtain ⟨htable,hu⟩ := h.dev (va / PGSIZE) hlo' hhi'
  refine copyout_refused k (walk_iff.2 htable) ?_ hbuf
  rw [userPage,Pgdir.entry,PGROUNDDOWN,Nat.mul_div_cancel _ (by decide)]
  cases he : d.pte (va / PGSIZE) with
  | none => rfl
  | some e => exact if_neg (by rw [hu e he]; exact Bool.false_ne_true)

/-- An argument of `len` bytes does not take the stack pointer below the device space. -/
def Fits (sp len : ℕ) : Prop := len + 1 ≤ sp + (2 ^ 32 - DEVSPACE)

theorem pushAt_le {len : ℕ} (h : len + 1 ≤ sp) : pushAt sp len + (len + 1) ≤ sp := by
  unfold pushAt
  omega

theorem pushAt_dev {len : ℕ} (h : Fits sp len) (hlt : sp < len + 1) :
    DEVSPACE ≤ pushAt sp len ∧ pushAt sp len < 2 ^ 32 := by
  unfold Fits DEVSPACE at h
  unfold pushAt DEVSPACE
  omega

/-- Every argument fits where it is pushed. -/
def AllFit : ℕ → List (List UInt8) → Prop
  | _, [] => True
  | sp, arg :: rest => Fits sp arg.length ∧
      (arg.length + 1 ≤ sp → AllFit (pushAt sp arg.length) rest)

/-- What `pushArgs` leaves. -/
structure Pushed (d : Pgdir) (k : Kmem) (sp argc : ℕ) (r : Kmem × Option (ℕ × List ℕ)) : Prop where
  frame : Frame d k r.1
  below : ∀ x ∈ r.2, x.1 ≤ sp ∧ argc + x.2.length ≤ MAXARG

theorem pushArgs_spec (h : Space d sz) (hsz : sz ≤ KERNBASE) {argv : List (List UInt8)} {argc : ℕ}
    (k : Kmem) (hsp : sp ≤ sz) (hargc : argc ≤ MAXARG) (hfit : AllFit sp argv) :
    Sat NotNull (Pushed d k sp argc) (pushArgs d argv argc k sp) := by
  induction argv generalizing argc k sp with
  | nil =>
    refine sat_ok.2 ⟨.refl d k,fun x hx => ?_⟩
    cases hx
    exact ⟨Nat.le_refl sp,hargc⟩
  | cons arg rest ih =>
    unfold pushArgs
    split
    next => exact sat_ok.2 ⟨.refl d k,nofun⟩
    next hlt =>
      have hlen : (arg ++ [0]).length = arg.length + 1 := length_append
      dsimp only
      by_cases hroom : arg.length + 1 ≤ sp
      · have hle := pushAt_le hroom
        have hreach : Reachable d (pushAt sp arg.length) (arg ++ [0]).length :=
          h.reachable hsz (by omega)
        refine (copyout_frame _ _ k (.inr hreach)).bind fun r hr => ?_
        split
        next =>
          refine (ih r.1 (by omega) (by omega) (hfit.2 hroom)).bind fun r' hr' => ?_
          split
          next => exact sat_pure.2 ⟨hr.trans hr'.frame,nofun⟩
          next sp' ptrs =>
            refine sat_pure.2 ⟨hr.trans hr'.frame,fun x hx => ?_⟩
            cases hx
            have hbelow := hr'.below _ rfl
            dsimp only [length_cons] at hbelow ⊢
            omega
        next => exact sat_pure.2 ⟨hr,nofun⟩
      · obtain ⟨hlo,hhi⟩ := pushAt_dev hfit.1 (by omega)
        rw [h.refused hlo hhi k (by simp)]
        exact sat_pure.2 ⟨.refl d k,nofun⟩

theorem length_flatMap_wordBytes (ws : List ℕ) : (ws.flatMap wordBytes).length = 4 * ws.length := by
  induction ws with
  | nil => rfl
  | cons w ws ih =>
    rw [flatMap_cons,length_append,ih,length_cons]
    change 4 + 4 * ws.length = _
    omega

theorem pushStack_frame (h : Space d sz) (hsz : sz ≤ KERNBASE) {argv : List (List UInt8)} (k : Kmem)
    (hfit : AllFit sz argv) : Sat NotNull (fun r => Frame d k r.1) (pushStack d argv k sz) := by
  refine (pushArgs_spec h hsz k (Nat.le_refl sz) (Nat.zero_le _) hfit).bind fun r hr => ?_
  split
  next => exact sat_pure.2 hr.frame
  next k' sp ptrs =>
    obtain ⟨hle,hargc⟩ := hr.below _ rfl
    have hframe : Frame d k k' := hr.frame
    have hlen : ((ustack sp ptrs).flatMap wordBytes).length = (3 + ptrs.length + 1) * 4 := by
      rw [length_flatMap_wordBytes,ustack]
      simp only [length_append,length_cons,length_nil]
      omega
    unfold MAXARG at hargc
    dsimp only at hle hargc ⊢
    by_cases hroom : (3 + ptrs.length + 1) * 4 ≤ sp
    · have hreach : Reachable d ((sp + 2 ^ 32 - (3 + ptrs.length + 1) * 4) % 2 ^ 32)
          ((ustack sp ptrs).flatMap wordBytes).length := by
        refine h.reachable (by unfold KERNBASE; exact hsz) ?_
        rw [hlen]
        omega
      exact (copyout_frame _ _ k' (.inr hreach)).bind fun r hr => sat_pure.2 (hframe.trans hr)
    · have hlo : DEVSPACE ≤ (sp + 2 ^ 32 - (3 + ptrs.length + 1) * 4) % 2 ^ 32 := by
        unfold DEVSPACE
        omega
      rw [h.refused hlo (by omega) k' (ne_nil_of_length_pos (by omega))]
      exact sat_pure.2 hframe

/-- An executable without segments. -/
def emptyElf : List UInt8 := [0x7f, 0x45, 0x4c, 0x46] ++ List.replicate 48 0

def freePages : Kmem where
  freelist := (List.range 0x104).map fun i => 0x400000 + i * PGSIZE
  mem := fun _ => 0

def bigProc : Proc where
  sz := 0x2200000
  pgdir := ⟨0x3ff000,fun _ => none,fun _ => none⟩
  eip := 0
  esp := 0
  name := []

/-- The kernel is mapped up to the page `x`, and nothing else. -/
structure Upto (d : Pgdir) (x : ℕ) : Prop where
  backed : Backed d
  pte : ∀ n, n < 0x80000 ∨ x ≤ n → d.pte n = none
  table : ∀ i, i < 0x200 ∨ 0x238 ≤ i → d.table i = none

theorem Upto.line {x y : ℕ} {w : Bool} (h : Upto d x) (pa : ℕ) (hx : 0x80000 ≤ x) (hxy : x < y)
    (hy : y ≤ 0x8E000) (hfree : 0x39 ≤ k.freelist.length) :
    ∃ k' d', mappages k d (x * PGSIZE) ((y - x) * PGSIZE % 2 ^ 32) pa w false = .ok (k',d',true) ∧
      Upto d' y ∧ k.freelist.length ≤ k'.freelist.length + 0x39 := by
  have hlast : x + (y - x) - 1 = y - 1 := by omega
  have htables : (y - 1) / NPTENTRIES - x / NPTENTRIES + 1 ≤ 0x39 ∧ 0x200 ≤ x / NPTENTRIES ∧
      (y - 1) / NPTENTRIES < 0x238 := by
    unfold NPTENTRIES
    omega
  obtain ⟨k',d',hmap,hs,hk⟩ := mappages_total (k := k) (w := w) (u := false)
    pa (y - x) h.backed (by unfold PGSIZE; omega) (by omega)
    (fun j hj _ => h.pte j (.inr hj)) (by rw [hlast]; omega)
  rw [hlast] at hs hk
  refine ⟨k',d',hmap,⟨hs.backed,fun n hn => ?_,fun i hi => ?_⟩,by omega⟩
  · rw [hs.pte n (by omega)]
    exact h.pte n (by omega)
  · rw [hs.table i (by omega)]
    exact h.table i hi

/-- The kernel and the device space are mapped, and nothing between or below them. -/
structure KernelOnly (d : Pgdir) : Prop where
  backed : Backed d
  pte : ∀ n, n < 0x80000 → d.pte n = none
  hole : ∀ i, 0x238 ≤ i → i < 0x3F8 → d.table i = none

theorem Upto.dev (h : Upto d 0x8E000) (hfree : 8 ≤ k.freelist.length) :
    ∃ k' d', mappages k d (0xFE000 * PGSIZE) (0x2000 * PGSIZE % 2 ^ 32) DEVSPACE true false =
      .ok (k',d',true) ∧ KernelOnly d' ∧ k.freelist.length ≤ k'.freelist.length + 8 := by
  obtain ⟨k',d',hmap,hs,hk⟩ := mappages_total (k := k) (w := true) (u := false)
    (n := 0xFE000) DEVSPACE 0x2000 h.backed (by decide) (by decide)
    (fun j hj _ => h.pte j (.inr (by omega))) hfree
  refine ⟨k',d',hmap,⟨hs.backed,fun n hn => ?_,fun i hi hi' => ?_⟩,hk⟩
  · rw [hs.pte n (.inl (by omega))]
    exact h.pte n (.inl hn)
  · rw [hs.table i (.inl hi')]
    exact h.table i (.inr hi)

theorem kmapLoop_cons {m : Kmap} {ms : List Kmap} {k' : Kmem} {d' : Pgdir}
    (h : mappages k d m.virt ((m.physEnd + 2 ^ 32 - m.physStart) % 2 ^ 32) m.physStart m.w false =
      .ok (k',d',true)) : kmapLoop L (m :: ms) k d = kmapLoop L ms k' d' := by
  rw [kmapLoop,h]
  rfl

/-- `setupkvm` succeeds with enough free pages. -/
theorem setupkvm_total {x : ℕ} (hdata : L.data = x * PGSIZE) (hlo : 0x80100 < x) (hhi : x < 0x8E000)
    (hfree : 0x100 ≤ k.freelist.length) : ∃ k' d, setupkvm L k = .ok (k',some d) ∧ KernelOnly d ∧
      k.freelist.length ≤ k'.freelist.length + 0x100 := by
  obtain ⟨pgdir,rest,hk⟩ : ∃ r rest, k.freelist = r :: rest :=
    exists_cons_of_length_pos (by omega)
  have hlen : k.freelist.length = rest.length + 1 := by rw [hk,length_cons]
  have h0 : Upto { addr := pgdir, table := fun _ => none, pte := fun _ => none } 0x80000 :=
    ⟨fun n hn => absurd rfl hn,fun _ _ => rfl,fun _ _ => rfl⟩
  obtain ⟨k1,d1,hmap1,h1,hk1⟩ := h0.line (k := Kmem.memset { k with freelist := rest } pgdir 0)
    (y := 0x80100) (w := true) 0 (by decide) (by decide) (by decide)
    (show 0x39 ≤ rest.length by omega)
  change rest.length ≤ _ at hk1
  obtain ⟨k2,d2,hmap2,h2,hk2⟩ := h1.line (k := k1) (w := false) (KERNLINK - KERNBASE)
    (by decide) hlo (by omega) (by omega)
  obtain ⟨k3,d3,hmap3,h3,hk3⟩ := h2.line (k := k2) (w := true) (x * PGSIZE - KERNBASE)
    (by omega) hhi (by decide) (by omega)
  obtain ⟨k4,d4,hmap4,h4,hk4⟩ := h3.dev (k := k3) (by omega)
  refine ⟨k4,d4,?_,h4,by omega⟩
  have hvirt1 : KERNBASE = 0x80000 * PGSIZE := by decide
  have hvirt2 : KERNLINK = 0x80100 * PGSIZE := by decide
  have hvirt4 : DEVSPACE = 0xFE000 * PGSIZE := by decide
  have hsize1 : (EXTMEM + 2 ^ 32 - 0) % 2 ^ 32 = (0x80100 - 0x80000) * PGSIZE % 2 ^ 32 := by decide
  have hsize4 : (0 + 2 ^ 32 - DEVSPACE) % 2 ^ 32 = 0x2000 * PGSIZE % 2 ^ 32 := by decide
  have hsize2 : (x * PGSIZE - KERNBASE + 2 ^ 32 - (KERNLINK - KERNBASE)) % 2 ^ 32 =
      (x - 0x80100) * PGSIZE % 2 ^ 32 := by
    unfold KERNLINK KERNBASE EXTMEM PGSIZE
    omega
  have hsize3 : (PHYSTOP + 2 ^ 32 - (x * PGSIZE - KERNBASE)) % 2 ^ 32 =
      (0x8E000 - x) * PGSIZE % 2 ^ 32 := by
    have hsum : PHYSTOP + 2 ^ 32 - (x * PGSIZE - KERNBASE) = 2 ^ 32 + (0x8E000 - x) * PGSIZE := by
      unfold PHYSTOP KERNBASE PGSIZE
      omega
    rw [hsum,Nat.add_mod_left]
  rw [← hvirt1,← hsize1] at hmap1
  rw [← hvirt2,← hsize2] at hmap2
  rw [← hsize3] at hmap3
  rw [← hvirt4,← hsize4] at hmap4
  rw [setupkvm,kalloc,hk]
  dsimp only
  rw [kmap,hdata,kmapLoop_cons (m := ⟨KERNBASE,0,EXTMEM,true⟩) hmap1,
    kmapLoop_cons (m := ⟨KERNLINK,KERNLINK - KERNBASE,x * PGSIZE - KERNBASE,false⟩) hmap2,
    kmapLoop_cons (m := ⟨x * PGSIZE,x * PGSIZE - KERNBASE,PHYSTOP,true⟩) hmap3,
    kmapLoop_cons (m := ⟨DEVSPACE,DEVSPACE,0,true⟩) hmap4]
  rfl

theorem allocLoop_cons {oldsz newsz a mem : ℕ} {as : List ℕ} {k1 k2 : Kmem} {d' : Pgdir}
    (hk : kalloc k = some (k1,mem))
    (hmap : mappages (k1.memset mem 0) d a PGSIZE mem true true = .ok (k2,d',true)) :
    allocLoop L oldsz newsz (a :: as) k d = allocLoop L oldsz newsz as k2 d' := by
  rw [allocLoop,hk]
  dsimp only
  rw [hmap]
  rfl

/-- The loop of `allocuvm` succeeds with enough free pages. -/
theorem allocLoop_total {n : ℕ} (L : Layout) (oldsz newsz : ℕ) (hnew : newsz < KERNBASE) (c : ℕ)
    (hb : Backed d) (hnone : ∀ j, n ≤ j → j < 0x80000 → d.pte j = none)
    (hc : newsz ≤ (n + c) * PGSIZE) (hfree : 2 * c ≤ k.freelist.length) :
    ∃ k' d', allocLoop L oldsz newsz (pages (n * PGSIZE) newsz) k d = .ok (k',d',newsz) ∧
      ∀ i, 0x200 ≤ i → d'.table i = d.table i := by
  induction c generalizing n k d with
  | zero =>
    rw [Nat.add_zero] at hc
    rw [pages_nil hc]
    exact ⟨k,d,rfl,fun _ _ => rfl⟩
  | succ c ih =>
    by_cases hlt : n * PGSIZE < newsz
    · have hn : n < 0x80000 := by
        unfold KERNBASE PGSIZE at *
        omega
      obtain ⟨mem,rest,hk⟩ : ∃ r rest, k.freelist = r :: rest :=
        exists_cons_of_length_pos (by omega)
      rw [hk,length_cons] at hfree
      obtain ⟨k',d',hmap,hs,hk'⟩ := mappages_total (n := n) (w := true)
        (u := true) (k := Kmem.memset { k with freelist := rest } mem 0) mem 1 hb
        (by unfold PGSIZE; omega) (Nat.le_refl 1) (fun j hj hj' => hnone j hj (by omega))
        (by rw [Nat.add_sub_cancel,Nat.sub_self]; change 1 ≤ rest.length; omega)
      rw [Nat.add_sub_cancel] at hs hk'
      rw [Nat.sub_self] at hk'
      change rest.length ≤ _ at hk'
      obtain ⟨k'',d'',hloop,htable⟩ := ih (k := k') (n := n + 1) hs.backed
        (fun j hj hj' => by rw [hs.pte j (by omega)]; exact hnone j (by omega) hj')
        (by rwa [Nat.succ_add]) (by omega)
      refine ⟨k'',d'',?_,fun i hi => ?_⟩
      · rw [Nat.one_mul,Nat.mod_eq_of_lt (by decide)] at hmap
        rw [Nat.succ_mul] at hloop
        rw [pages_cons hlt,allocLoop_cons (by rw [kalloc,hk]) hmap,hloop]
      · rw [htable i hi,hs.table i (.inr ?_)]
        unfold NPTENTRIES
        omega
    · rw [pages_nil (Nat.le_of_not_lt hlt)]
      exact ⟨k,d,rfl,fun _ _ => rfl⟩

/-- The memory of a program without segments: a stack of two pages. -/
theorem image_emptyElf {x : ℕ} (hdata : L.data = x * PGSIZE) (hlo : 0x80100 < x) (hhi : x < 0x8E000)
    (hfree : 0x104 ≤ k.freelist.length) :
    ∃ k' elf d, image L k emptyElf = .ok (k',some (elf,d,2 * PGSIZE)) ∧
      ∀ i, 0x238 ≤ i → i < 0x3F8 → d.table i = none := by
  obtain ⟨k1,d1,hset,honly,hk1⟩ := setupkvm_total (k := k) hdata hlo hhi (by omega)
  obtain ⟨k2,d2,hloop,htable⟩ := allocLoop_total (k := k1) (n := 0) L 0 (2 * PGSIZE)
    (by decide) 2 honly.backed (fun j _ hj => honly.pte j hj) (by decide) (by omega)
  have halloc : allocuvm L k1 d1 0 (2 * PGSIZE) = .ok (k2,d2,2 * PGSIZE) := hloop
  have hspace : Space d2 (2 * PGSIZE) :=
    (allocuvm_space L k1 ((setupkvm_space L k).ok hset d1 rfl) _).ok halloc (show 2 * PGSIZE ≠ 0 by decide)
  have hwalk : d2.walk 0 = true := walk_iff.2 (hspace.backed 0 (hspace.user 0 (by decide)))
  refine ⟨k2,Elfhdr.ofBytes emptyElf,
    d2.setEntry 0 ((d2.entry 0).map fun e => { e with u := false }),?_,fun i hi hi' => ?_⟩
  · have hread : readRecord emptyElf 0 Elfhdr.size = some emptyElf := by decide
    have hmagic : (Elfhdr.ofBytes emptyElf).magic = ELF_MAGIC := by decide
    have hload : loadImage L emptyElf (Elfhdr.ofBytes emptyElf) k1 d1 =
        .ok (k2,d2.setEntry 0 ((d2.entry 0).map fun e => { e with u := false }),
          some (2 * PGSIZE)) := by
      have hstack : userStack L k1 d1 0 =
          .ok (k2,d2.setEntry 0 ((d2.entry 0).map fun e => { e with u := false }),
            some (2 * PGSIZE)) := by
        have hclear : clearpteu d2 (2 * PGSIZE - 2 * PGSIZE) =
            .ok (d2.setEntry 0 ((d2.entry 0).map fun e => { e with u := false })) := if_pos hwalk
        unfold userStack
        rw [show PGROUNDUP 0 = 0 from rfl,show (0 + 2 * PGSIZE) % 2 ^ 32 = 2 * PGSIZE from rfl,
          halloc]
        dsimp only [bind,Except.bind]
        rw [if_neg (by decide),hclear]
        rfl
      exact hstack
    rw [image,hread]
    dsimp only
    rw [if_neg (by simp [hmagic]),hset]
    dsimp only [bind,Except.bind]
    rw [hload]
    rfl
  · exact (htable i (by omega)).trans (honly.hole i hi hi')

theorem copyout_null {va : ℕ} {buf : List UInt8} (k : Kmem) (hw : d.table (PDX va) = none)
    (hbuf : buf ≠ []) : copyout k d va buf = .error .null := by
  obtain ⟨n,hn⟩ : ∃ n, buf.length = n + 1 :=
    ⟨buf.length - 1,by have := length_pos_iff.2 hbuf; omega⟩
  have hka : uva2ka d (PGROUNDDOWN va) = .error .null := by
    rw [uva2ka,walk_rounddown,Pgdir.walk,hw]
    rfl
  rw [copyout,hn,copyLoopOut,if_neg hbuf]
  dsimp only
  rw [hka]
  rfl

/-- An argument of 33 MB takes the stack pointer into the hole between the kernel and the device
space. -/
theorem exec_hole {x : ℕ} (hdata : L.data = x * PGSIZE) (hlo : 0x80100 < x) (hhi : x < 0x8E000)
    (hfree : 0x104 ≤ k.freelist.length) (p : Proc) (path : List UInt8) {arg : List UInt8}
    (harg : arg.length = 0x2100000) : exec L k p path (some emptyElf) [arg] = .error .null := by
  obtain ⟨k',elf,d,himage,hhole⟩ := image_emptyElf (k := k) hdata hlo hhi hfree
  have hsp : PDX (pushAt (2 * PGSIZE) arg.length) = 0x3F7 := by
    rw [harg]
    decide
  have hcopy : copyout k' d (pushAt (2 * PGSIZE) arg.length) (arg ++ [0]) = .error .null := by
    refine copyout_null k' ?_ (append_ne_nil_of_right_ne_nil _ (cons_ne_nil _ _))
    rw [hsp]
    exact hhole _ (by decide) (by decide)
  have hargs : pushArgs d [arg] 0 k' (2 * PGSIZE) = .error .null := by
    rw [pushArgs,if_neg (by decide)]
    dsimp only
    rw [hcopy]
    rfl
  rw [exec,himage]
  dsimp only [bind,Except.bind]
  rw [pushStack,hargs]
  rfl

end Xv6.Vm
