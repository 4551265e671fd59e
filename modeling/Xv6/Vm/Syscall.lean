import Xv6.Lib.Machine
import Xv6.Lib.Result
import Xv6.Vm.Exec

/-! # `syscall.c`: arguments of system calls

The size of a process stays below `KERNBASE` under `fork`, `exec` and `growproc`, and therefore the
checks of the arguments, which add in 32 bits, keep the kernel inside the process. -/
namespace Xv6.Vm
open Function Result List Option

/-- The word in the memory of the process at `addr`. -/
def userWord (mem : ℕ → UInt8) (addr : UInt32) : UInt32 :=
  UInt32.ofNat (leNat ((List.range 4).map fun i => mem (addr.toNat + i)) 0 4)

/-- `fetchint(addr, ip)` in a process of `sz` bytes. -/
def fetchint (sz : ℕ) (mem : ℕ → UInt8) (addr : UInt32) : Option UInt32 :=
  if addr.toNat ≥ sz ∨ (addr + 4).toNat > sz then none else some (userWord mem addr)

/-- `fetchstr(addr, pp)`: the length of the string. -/
def fetchstr (sz : ℕ) (mem : ℕ → UInt8) (addr : UInt32) : Option ℕ :=
  if addr.toNat ≥ sz then none
  else (List.range (sz - addr.toNat)).find? fun i => mem (addr.toNat + i) = 0

def argAddr (esp n : UInt32) : UInt32 := esp + 4 + 4 * n

def argint (sz : ℕ) (mem : ℕ → UInt8) (esp n : UInt32) : Option UInt32 :=
  fetchint sz mem (argAddr esp n)

/-- `argptr(n, pp, size)`: the pointer. -/
def argptr (sz : ℕ) (mem : ℕ → UInt8) (esp n : UInt32) (size : Int32) : Option UInt32 := do
  let i ← argint sz mem esp n
  if size < 0 ∨ i.toNat ≥ sz ∨ (i + size.toUInt32).toNat > sz then none else some i

/-- `argstr(n, pp)`: the pointer and the length. -/
def argstr (sz : ℕ) (mem : ℕ → UInt8) (esp n : UInt32) : Option (UInt32 × ℕ) := do
  let addr ← argint sz mem esp n
  let len ← fetchstr sz mem addr
  return (addr,len)

/-- The loop of `sys_exec`: the entries of `argv` that are written, and the arguments if it goes on
to `exec`.  `fetchstr` sets `argv[i]` when the address is in the process, whether or not it finds the
end of the string. -/
def execArgs (sz : ℕ) (mem : ℕ → UInt8) (uargv : UInt32) : ℕ → ℕ → List ℕ × Option (List UInt32)
  | 0, _ => ([],none)
  | fuel + 1, i =>
    if i ≥ MAXARG then ([],none)
    else
      match fetchint sz mem (uargv + 4 * UInt32.ofNat i) with
      | none => ([],none)
      | some uarg =>
        if uarg = 0 then ([i],some [])
        else
          match fetchstr sz mem uarg with
          | none => (if uarg.toNat ≥ sz then [] else [i],none)
          | some _ =>
            let r := execArgs sz mem uargv fuel (i + 1)
            (i :: r.1,r.2.map (uarg :: ·))

/-- `sys_exec`: the entries of `argv` that are written, and the path and the arguments for `exec`. -/
def sysExec (sz : ℕ) (mem : ℕ → UInt8) (esp : UInt32) : List ℕ × Option (UInt32 × List UInt32) :=
  match argstr sz mem esp 0, argint sz mem esp 1 with
  | some (path,_), some uargv =>
    let r := execArgs sz mem uargv (MAXARG + 1) 0
    (r.1,r.2.map fun args => (path,args))
  | _, _ => ([],none)

structure Kernel where
  kmem : Kmem
  procs : ℕ → Option Proc

inductive Call where
  | fork (p child : ℕ)
  | exec (p : ℕ) (path : List UInt8) (file : Option (List UInt8)) (argv : List (List UInt8))
  | growproc (p : ℕ) (n : Int32)

/-- A call of a process, if there is one and the kernel does not stop. -/
def step (L : Layout) (s : Kernel) : Call → Option Kernel
  | .fork p child => do
    let q ← s.procs p
    match s.procs child, fork L s.kmem q with
    | none, .ok (k,none) => some { s with kmem := k }
    | none, .ok (k,some q') => some { kmem := k, procs := update s.procs child (some q') }
    | _, _ => none
  | .exec p path file argv => do
    let q ← s.procs p
    match exec L s.kmem q path file argv with
    | .ok (k,q',_) => some { kmem := k, procs := update s.procs p (some q') }
    | .error _ => none
  | .growproc p n => do
    let q ← s.procs p
    match growproc L s.kmem q n with
    | .ok (k,q',_) => some { kmem := k, procs := update s.procs p (some q') }
    | .error _ => none

/-- The first process, as `userinit` leaves it, has one page. -/
def Kernel.Initial (s : Kernel) : Prop := ∀ p q, s.procs p = some q → q.sz = PGSIZE

def Kernel.Small (s : Kernel) : Prop := ∀ p q, s.procs p = some q → q.sz < KERNBASE

section Sizes
variable {L : Layout} {k : Kmem} {d : Pgdir} {sz oldsz newsz : ℕ}

theorem KERNBASE_pos : 0 < KERNBASE := by decide

theorem PGROUNDUP_le (h : sz < KERNBASE) : PGROUNDUP sz ≤ KERNBASE := by
  unfold PGROUNDUP KERNBASE PGSIZE at *
  omega

theorem deallocuvm_size (h : oldsz < KERNBASE) :
    Sat (fun _ => True) (fun r => r.2.2 < KERNBASE) (deallocuvm L k d oldsz newsz) := by
  unfold deallocuvm
  split
  next => exact sat_ok.2 h
  next hlt =>
    refine (sat_true _).bind fun r _ => sat_pure.2 ?_
    exact Nat.lt_trans (Nat.lt_of_not_le hlt) h

theorem allocLoop_size (h : newsz < KERNBASE) (as : List ℕ) :
    Sat (fun _ => True) (fun r => r.2.2 < KERNBASE) (allocLoop L oldsz newsz as k d) := by
  induction as generalizing k d with
  | nil => exact sat_ok.2 h
  | cons a rest ih =>
    unfold allocLoop
    split
    next => exact (sat_true _).bind fun r _ => sat_pure.2 KERNBASE_pos
    next k' mem _ =>
      refine (sat_true _).bind fun r _ => ?_
      split
      · exact ih
      · exact (sat_true _).bind fun r _ => (sat_true _).bind fun k _ => sat_pure.2 KERNBASE_pos

/-- `allocuvm` returns a size below `KERNBASE`. -/
theorem allocuvm_size (h : oldsz < KERNBASE ∨ oldsz ≤ newsz) :
    Sat (fun _ => True) (fun r => r.2.2 < KERNBASE) (allocuvm L k d oldsz newsz) := by
  unfold allocuvm
  split
  next => exact sat_ok.2 KERNBASE_pos
  next hbase =>
    split
    next hlt => exact sat_ok.2 (h.resolve_right (Nat.not_le_of_lt hlt))
    next => exact allocLoop_size (Nat.lt_of_not_le hbase) _

section Walk
variable {E : Trap → Prop} {I : Pgdir → ℕ → Prop}

/-- The memory of the program where `exec` goes on. -/
def Ready (I : Pgdir → ℕ → Prop) (r : Kmem × Pgdir × Option ℕ) : Prop := ∀ sz ∈ r.2.2, I r.2.1 sz

theorem ready_none (k : Kmem) (d : Pgdir) : Ready I (k,d,none) := nofun

theorem ready_some (k : Kmem) (h : I d sz) : Ready I (k,d,some sz) := by
  intro sz' hsz'
  exact Option.some.inj hsz' ▸ h

/-- What `exec` needs of the functions that it builds the memory with, to keep `I`. -/
structure Keeps (L : Layout) (E : Trap → Prop) (I : Pgdir → ℕ → Prop) : Prop where
  setup : ∀ k, Sat E (fun r => ∀ d ∈ r.2, I d 0) (setupkvm L k)
  alloc : ∀ k {d sz} newsz, I d sz →
    Sat E (fun r => r.2.2 ≠ 0 → I r.2.1 r.2.2) (allocuvm L k d sz newsz)
  load : ∀ k d addr file offset n, Sat E (fun _ => True) (loaduvm k d addr file offset n)
  stack : ∀ k {d sz}, I d sz → Sat E (Ready I) (userStack L k d sz)
  free : ∀ k d, Sat E (fun _ => True) (freevm L k d)

theorem Keeps.loadSegment (hI : Keeps L E I) (file : List UInt8) (k : Kmem) (h : I d sz)
    (ph : Proghdr) : Sat E (Ready I) (loadSegment L file k d sz ph) := by
  unfold Vm.loadSegment
  split
  · exact sat_ok.2 (ready_some k h)
  · split
    · exact sat_ok.2 (ready_none k d)
    · split
      · exact sat_ok.2 (ready_none k d)
      · refine (hI.alloc k _ h).bind fun r hr => ?_
        split
        next => exact sat_pure.2 (ready_none _ _)
        next hsz =>
          split
          next => exact sat_pure.2 (ready_none _ _)
          next =>
            refine (hI.load ..).bind fun l _ => sat_pure.2 ?_
            split
            · exact ready_some _ (hr hsz)
            · exact ready_none _ _

theorem Keeps.loadProgram (hI : Keeps L E I) (file : List UInt8) (n off : ℕ) (k : Kmem)
    (h : I d sz) : Sat E (Ready I) (loadProgram L file n off k d sz) := by
  induction n generalizing off k d sz with
  | zero => exact sat_ok.2 (ready_some k h)
  | succ n ih =>
    unfold Vm.loadProgram
    split
    next => exact sat_ok.2 (ready_none k d)
    next =>
      refine (hI.loadSegment file k h _).bind fun r hr => ?_
      split
      next => exact sat_pure.2 (ready_none _ _)
      next sz' => exact ih _ _ (hr sz' rfl)

theorem Keeps.loadImage (hI : Keeps L E I) (file : List UInt8) (elf : Elfhdr) (k : Kmem)
    (h : I d 0) : Sat E (Ready I) (loadImage L file elf k d) := by
  refine (hI.loadProgram file _ _ k h).bind fun r hr => ?_
  split
  next => exact sat_pure.2 (ready_none _ _)
  next sz => exact hI.stack _ (hr sz rfl)

theorem Keeps.image (hI : Keeps L E I) (k : Kmem) (file : List UInt8) :
    Sat E (fun r => ∀ i ∈ r.2, I i.2.1 i.2.2) (image L k file) := by
  unfold Vm.image
  split
  next => exact sat_ok.2 nofun
  next =>
    dsimp only
    split
    next => exact sat_ok.2 nofun
    next =>
      refine (hI.setup k).bind fun r hr => ?_
      split
      next => exact sat_pure.2 nofun
      next k d =>
        refine (hI.loadImage file _ k (hr d rfl)).bind fun r hr => ?_
        split
        next => exact (hI.free ..).bind fun k _ => sat_pure.2 nofun
        next sz =>
          refine sat_pure.2 fun i hi => ?_
          exact Option.some.inj hi ▸ hr sz rfl

end Walk

theorem userStack_size (k : Kmem) (d : Pgdir) (h : sz < KERNBASE) :
    Sat (fun _ => True) (Ready fun _ sz => sz < KERNBASE) (userStack L k d sz) := by
  have hup := PGROUNDUP_le h
  have hle : PGROUNDUP sz ≤ (PGROUNDUP sz + 2 * PGSIZE) % 2 ^ 32 := by
    unfold KERNBASE at hup
    unfold PGSIZE
    omega
  refine (allocuvm_size (.inr hle)).bind fun r hr => ?_
  split
  · exact sat_pure.2 (ready_none _ _)
  · exact (sat_true _).bind fun d _ => sat_pure.2 (ready_some _ hr)

theorem keeps_size (L : Layout) : Keeps L (fun _ => True) fun _ sz => sz < KERNBASE where
  setup _ := (sat_true _).mono fun _ _ _ _ => KERNBASE_pos
  alloc _ _ _ _ h := (allocuvm_size (.inl h)).mono fun _ hr _ => hr
  load _ _ _ _ _ _ := sat_true _
  stack k d _ h := userStack_size k d h
  free _ _ := sat_true _

/-- `exec` keeps the size of a process below `KERNBASE`. -/
theorem exec_size {p : Proc} (h : p.sz < KERNBASE) (path : List UInt8)
    (file : Option (List UInt8)) (argv : List (List UInt8)) :
    Sat (fun _ => True) (fun r => r.2.1.sz < KERNBASE) (exec L k p path file argv) := by
  unfold exec
  split
  next => exact sat_ok.2 h
  next =>
    refine ((keeps_size L).image k _).bind fun r hr => ?_
    split
    next => exact sat_pure.2 h
    next elf d sz =>
      refine (sat_true _).bind fun r _ => ?_
      split
      next => exact (sat_true _).bind fun k _ => sat_pure.2 h
      next => exact (sat_true _).bind fun k _ => sat_pure.2 (hr _ rfl)

theorem growproc_size {p : Proc} (h : p.sz < KERNBASE) (n : Int32) :
    Sat (fun _ => True) (fun r => r.2.1.sz < KERNBASE) (growproc L k p n) := by
  unfold growproc
  split
  · refine (allocuvm_size (.inl h)).bind fun r hr => sat_pure.2 ?_
    split
    · exact h
    · exact hr
  · split
    · refine (deallocuvm_size h).bind fun r hr => sat_pure.2 ?_
      split
      · exact h
      · exact hr
    · exact sat_ok.2 h

theorem fork_size {p : Proc} (h : p.sz < KERNBASE) :
    Sat (fun _ => True) (fun r => ∀ q ∈ r.2, q.sz < KERNBASE) (fork L k p) := by
  refine (sat_true _).bind fun r _ => ?_
  split
  next => exact sat_pure.2 nofun
  next d =>
    refine sat_pure.2 fun q hq => ?_
    exact Option.some.inj hq ▸ h

theorem Kernel.Small.update {s : Kernel} (h : s.Small) (k : Kmem) (p : ℕ) {q : Proc}
    (hq : q.sz < KERNBASE) : Kernel.Small { kmem := k, procs := update s.procs p (some q) } := by
  intro p' q' hp
  dsimp only at hp
  by_cases heq : p' = p
  · subst heq
    rw [update_self] at hp
    exact Option.some.inj hp ▸ hq
  · rw [update_of_ne heq] at hp
    exact h p' q' hp

theorem Kernel.Small.step {s s' : Kernel} {c : Call} (h : s.Small) (hs : step L s c = some s') :
    s'.Small := by
  cases c with
  | fork p child =>
    obtain ⟨q,hq,hs⟩ := bind_eq_some_iff.1 hs
    split at hs
    next => exact Option.some.inj hs ▸ h
    next k q' _ hfork =>
      exact Option.some.inj hs ▸ h.update k child ((fork_size (h p q hq)).ok hfork q' rfl)
    next => cases hs
  | exec p path file argv =>
    obtain ⟨q,hq,hs⟩ := bind_eq_some_iff.1 hs
    split at hs
    next k q' _ hexec =>
      exact Option.some.inj hs ▸ h.update k p ((exec_size (h p q hq) path file argv).ok hexec)
    next => cases hs
  | growproc p n =>
    obtain ⟨q,hq,hs⟩ := bind_eq_some_iff.1 hs
    split at hs
    next k q' _ hgrow =>
      exact Option.some.inj hs ▸ h.update k p ((growproc_size (h p q hq) n).ok hgrow)
    next => cases hs

end Sizes

section Ranges
variable {sz : ℕ} {mem : ℕ → UInt8} {addr esp n w : UInt32}

/-- `fetchint` reads four bytes of the process. -/
theorem fetchint_range (hsz : sz < KERNBASE) (h : fetchint sz mem addr = some w) :
    addr.toNat + 4 ≤ sz := by
  unfold fetchint at h
  split at h
  next => cases h
  next hok =>
    rw [UInt32.toNat_add] at hok
    unfold KERNBASE at hsz
    have : (4 : UInt32).toNat = 4 := rfl
    omega

theorem toNat_toUInt32 {size : Int32} (h : ¬ size < 0) : (size.toUInt32.toNat : ℤ) = size.toInt := by
  have h0 : 0 ≤ size.toInt := by
    rw [Int32.lt_iff_toInt_lt] at h
    exact Int.not_lt.1 h
  rw [Int32.toNat_toUInt32_of_le (Int32.le_iff_toInt_le.2 h0)]
  exact Int.toNat_of_nonneg h0

/-- `argptr` approves `size` bytes of the process. -/
theorem argptr_range {size : Int32} {i : UInt32} (hsz : sz < KERNBASE)
    (h : argptr sz mem esp n size = some i) : 0 ≤ size.toInt ∧ i.toNat + size.toInt ≤ sz := by
  obtain ⟨j,hj,h⟩ := bind_eq_some_iff.1 h
  split at h
  next => cases h
  next hok =>
    cases h
    have hsize := toNat_toUInt32 fun hneg => hok (.inl hneg)
    have hlt := size.toInt_lt
    rw [UInt32.toNat_add] at hok
    unfold KERNBASE at hsz
    omega

/-- The string with its NUL lies in the process. -/
theorem fetchstr_range {len : ℕ} (h : fetchstr sz mem addr = some len) :
    addr.toNat + len < sz ∧ mem (addr.toNat + len) = 0 := by
  unfold fetchstr at h
  split at h
  next => cases h
  next hlt =>
    have hmem := mem_range.1 (mem_of_find?_eq_some h)
    have hzero := List.find?_some h
    exact ⟨by omega,of_decide_eq_true hzero⟩

/-- The entries that the loop of `sys_exec` writes are different and in `argv`. -/
theorem execArgs_written (sz : ℕ) (mem : ℕ → UInt8) (uargv : UInt32) (fuel i : ℕ) :
    (execArgs sz mem uargv fuel i).1.Nodup ∧
      ∀ j ∈ (execArgs sz mem uargv fuel i).1, i ≤ j ∧ j < MAXARG := by
  induction fuel generalizing i with
  | zero => exact ⟨nodup_nil,nofun⟩
  | succ fuel ih =>
    unfold execArgs
    split
    next => exact ⟨nodup_nil,nofun⟩
    next hi =>
      have hone : [i].Nodup ∧ ∀ j ∈ [i], i ≤ j ∧ j < MAXARG := by
        refine ⟨by simp,fun j hj => ?_⟩
        rw [mem_singleton] at hj
        omega
      split
      next => exact ⟨nodup_nil,nofun⟩
      next uarg _ =>
        split
        next => exact hone
        next =>
          split
          next =>
            split
            next => exact ⟨nodup_nil,nofun⟩
            next => exact hone
          next =>
            obtain ⟨hnodup,hlt⟩ := ih (i + 1)
            refine ⟨nodup_cons.2 ⟨fun hmem => ?_,hnodup⟩,fun j hj => ?_⟩
            · have := (hlt i hmem).1
              omega
            · rcases mem_cons.1 hj with rfl | hj
              · omega
              · have := hlt j hj
                omega

theorem sysExec_written (sz : ℕ) (mem : ℕ → UInt8) (esp : UInt32) :
    (sysExec sz mem esp).1.Nodup ∧ ∀ j ∈ (sysExec sz mem esp).1, j < MAXARG := by
  unfold sysExec
  split
  next uargv _ _ =>
    obtain ⟨hnodup,hlt⟩ := execArgs_written sz mem uargv (MAXARG + 1) 0
    exact ⟨hnodup,fun j hj => (hlt j hj).2⟩
  next => exact ⟨nodup_nil,nofun⟩

/-- What the kernel approves in a process of `sz` bytes lies in the process, and `sys_exec` writes
entries of `argv` only. -/
structure Inside (sz : ℕ) (mem : ℕ → UInt8) (esp : UInt32) : Prop where
  fetchint : ∀ addr w, fetchint sz mem addr = some w → addr.toNat + 4 ≤ sz
  argint : ∀ n w, argint sz mem esp n = some w → (argAddr esp n).toNat + 4 ≤ sz
  argptr : ∀ n size i, argptr sz mem esp n size = some i →
    0 ≤ size.toInt ∧ i.toNat + size.toInt ≤ sz
  fetchstr : ∀ addr len, fetchstr sz mem addr = some len →
    addr.toNat + len < sz ∧ mem (addr.toNat + len) = 0
  argv : (sysExec sz mem esp).1.Nodup ∧ ∀ j ∈ (sysExec sz mem esp).1, j < MAXARG

theorem inside (hsz : sz < KERNBASE) (mem : ℕ → UInt8) (esp : UInt32) : Inside sz mem esp where
  fetchint _ _ h := fetchint_range hsz h
  argint _ _ h := fetchint_range hsz h
  argptr _ _ _ h := argptr_range hsz h
  fetchstr _ _ h := fetchstr_range h
  argv := sysExec_written sz mem esp

end Ranges

section Run
variable {L : Layout}

/-- `userinit` makes an initial state. -/
theorem initial_userinit {k k' : Kmem} {init : List UInt8} {q : Proc} (p : ℕ)
    (h : userinit L k init = .ok (k',q)) :
    Kernel.Initial { kmem := k', procs := update (fun _ => none) p (some q) } := by
  have hsz : Sat (fun _ => True) (fun r => r.2.sz = PGSIZE) (userinit L k init) := by
    refine (sat_true _).bind fun r _ => ?_
    split
    next => exact sat_error.2 trivial
    next => exact (sat_true _).bind fun r _ => sat_pure.2 rfl
  intro p' q' hp
  dsimp only at hp
  by_cases heq : p' = p
  · rw [heq,update_self] at hp
    exact Option.some.inj hp ▸ hsz.ok h
  · rw [update_of_ne heq] at hp
    cases hp

/-- In every state that `fork`, `exec` and `growproc` reach, the size of every process is below
`KERNBASE`, and what the kernel approves lies in the process. -/
theorem user_pointers_inside {s₀ s : Kernel} (h₀ : s₀.Initial)
    (h : Machine.Reach (step L) (fun _ _ => True) s₀ s) {p : ℕ} {q : Proc}
    (hp : s.procs p = some q) : q.sz < KERNBASE ∧ ∀ mem esp, Inside q.sz mem esp := by
  have hsmall : s.Small := by
    refine h.invariant (fun p q hq => ?_) fun s s' c hs _ hstep => hs.step hstep
    rw [h₀ p q hq]
    decide
  exact ⟨hsmall p q hp,inside (hsmall p q hp)⟩

def oneProcess : Kernel where
  kmem := { freelist := [0x400000, 0x401000], mem := fun _ => 0 }
  procs := fun p => if p = 0 then
    some { sz := PGSIZE, pgdir := ⟨0x3ff000,fun _ => none,fun _ => none⟩, eip := 0, esp := PGSIZE
           name := [] } else none

theorem user_pointers_inside_grown :
    ∃ s q, Machine.Reach (step ⟨0x80110000,0x80120000⟩) (fun _ _ => True) oneProcess s ∧
      s.procs 0 = some q ∧ q.sz = 4196 ∧ Inside 4196 (fun _ => 0) 4000 := by
  have hgrow : ((step ⟨0x80110000,0x80120000⟩ oneProcess (.growproc 0 100)).bind
      fun s => (s.procs 0).map Proc.sz) = some 4196 := by decide +kernel
  obtain ⟨s,hs,hval⟩ := bind_eq_some_iff.1 hgrow
  obtain ⟨q,hq,hsz⟩ := map_eq_some_iff.1 hval
  have hinit : oneProcess.Initial := by
    intro p q hq
    dsimp only [oneProcess] at hq
    split at hq
    next => exact Option.some.inj hq ▸ rfl
    next => cases hq
  have hreach : Machine.Reach (step ⟨0x80110000,0x80120000⟩) (fun _ _ => True) oneProcess s :=
    .step .init trivial hs
  have hinside := (user_pointers_inside hinit hreach hq).2 (fun _ => 0) 4000
  rw [hsz] at hinside
  exact ⟨s,q,hreach,hq,hsz,hinside⟩

end Run

end Xv6.Vm
