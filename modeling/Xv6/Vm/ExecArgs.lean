import Xv6.Vm.ExecImage

/-! # The argument stack that `exec` builds

The strings, the pointers and the arguments of `main` are in the stack page, one below the other. -/
namespace Xv6.Vm
open Patch (patch patch_in patch_out)
open Result List

def Pgdir.BytesAt (d : Pgdir) (k : Kmem) (a : ℕ) (l : List UInt8) : Prop :=
  ∀ i, (h : i < l.length) → d.byte k (a + i) = some l[i]

/-- The strings that are pushed from `sp` down to `low`, and where they are. -/
inductive Strings (d : Pgdir) (k : Kmem) (low : ℕ) : ℕ → List (List UInt8) → List ℕ → Prop
  | nil : Strings d k low low [] []
  | cons {sp ptr : ℕ} {arg : List UInt8} {args : List (List UInt8)} {ptrs : List ℕ}
    (aligned : ptr % 4 = 0) (below : ptr + (arg.length + 1) ≤ sp) (bytes : d.BytesAt k ptr (arg ++ [0]))
    (rest : Strings d k low ptr args ptrs) : Strings d k low sp (arg :: args) (ptr :: ptrs)

variable {L : Layout} {k k₀ k' : Kmem} {d : Pgdir} {g : ℕ → UInt8} {buf : List UInt8}
  {args argv : List (List UInt8)} {ptrs : List ℕ} {n sp low va argc : ℕ}

theorem Image.page (h : Image k₀ n g k d) {e : Pte} (hva : va < KERNBASE)
    (he : d.pte (va / PGSIZE) = some e) (hu : e.u = true) : va < (n + 2) * PGSIZE ∧ va / PGSIZE ≠ n := by
  have hlt : va / PGSIZE < n + 2 := by
    by_contra hge
    rw [h.empty _ (Nat.not_lt.1 hge) (page_lt_NUSER hva)] at he
    cases he
  refine ⟨lt_page.1 hlt,fun hn => ?_⟩
  obtain ⟨pa,hpa⟩ := h.mapped _ hlt
  rw [he] at hpa
  rw [Option.some.inj hpa,hn] at hu
  simp at hu

/-- What is written up to the stack page is in the stack page: the guard page is below it. -/
theorem Image.in_stack (h : Image k₀ n g k d) (hw : Written d k va buf k') (hbuf : 0 < buf.length) :
    va + buf.length ≤ (n + 2) * PGSIZE ∧
      ((n + 1) * PGSIZE ≤ va + buf.length + 3 → (n + 1) * PGSIZE ≤ va) := by
  have hpage : ∀ x, va ≤ x → x < va + buf.length → x < (n + 2) * PGSIZE ∧ x / PGSIZE ≠ n := by
    intro x h1 h2
    obtain ⟨hx,e,he,hu⟩ := hw.reach x h1 h2
    exact h.page hx he hu
  refine ⟨?_,fun hend => ?_⟩
  · have hlast := (hpage (va + buf.length - 1) (by omega) (by omega)).1
    omega
  · by_contra hlt
    refine (hpage (max va ((n + 1) * PGSIZE - 4)) (Nat.le_max_left _ _) ?_).2 ?_
    · omega
    · unfold PGSIZE at *
      omega

/-- The memory of the program stays where nothing below the guard page is written. -/
theorem Image.write (h : Image k₀ n g k d) (hmade : Made k₀ k' d)
    (hbytes : ∀ x, x < n * PGSIZE → d.byte k' x = d.byte k x) : Image k₀ n g k' d :=
  ⟨hmade,h.top,h.mapped,h.empty,h.kernel,fun va hva => (hbytes va hva).trans (h.bytes va hva)⟩

theorem Written.bytesAt (hw : Written d k va buf k') : d.BytesAt k' va buf := by
  intro i hi
  have hx := (hw.reach (va + i) (Nat.le_add_right va i) (by omega)).1
  rw [hw.bytes _ hx,patch_in (by rwa [length_map]),getElem_map]

theorem Written.other (hw : Written d k va buf k') {x : ℕ} (hx : x < KERNBASE)
    (hout : x < va ∨ va + buf.length ≤ x) : d.byte k' x = d.byte k x := by
  rw [hw.bytes x hx,patch_out (by rwa [length_map])]

theorem Strings.congr (h : Strings d k low sp args ptrs)
    (hbytes : ∀ x, low ≤ x → x < sp → d.byte k' x = d.byte k x) :
    low ≤ sp ∧ Strings d k' low sp args ptrs := by
  induction h with
  | nil => exact ⟨Nat.le_refl low,.nil⟩
  | @cons sp ptr arg args ptrs aligned below bytes rest ih =>
    obtain ⟨hle,hrest⟩ := ih fun x h1 h2 => hbytes x h1 (by omega)
    refine ⟨by omega,.cons aligned below (fun i hi => ?_) hrest⟩
    rw [hbytes _ (by omega) ?_,bytes i hi]
    rw [length_append,length_singleton] at hi
    omega

/-- Where `sp` is after a push, if the string fits. -/
theorem pushAt_in_stack {len : ℕ} (hlo : (n + 1) * PGSIZE ≤ sp) (hhi : sp ≤ (n + 2) * PGSIZE)
    (htop : (n + 2) * PGSIZE < KERNBASE) (hend : pushAt sp len + (len + 1) ≤ (n + 2) * PGSIZE) :
    pushAt sp len % 4 = 0 ∧ pushAt sp len + (len + 1) ≤ sp ∧
      (n + 1) * PGSIZE ≤ pushAt sp len + (len + 1) + 3 := by
  unfold pushAt KERNBASE PGSIZE at *
  omega

theorem pushAt_lt (sp len : ℕ) : pushAt sp len < 2 ^ 32 := by
  unfold pushAt
  omega

/-- What `pushArgs` leaves in the stack page. -/
structure Stacked (n : ℕ) (d : Pgdir) (k : Kmem) (sp : ℕ) (args : List (List UInt8)) (k' : Kmem)
    (low : ℕ) (ptrs : List ℕ) : Prop where
  strings : Strings d k' low sp args ptrs
  above : (n + 1) * PGSIZE ≤ low
  aligned : sp % 4 = 0 → low % 4 = 0
  other : ∀ x, x < KERNBASE → x < low ∨ sp ≤ x → d.byte k' x = d.byte k x

theorem pushArgs_stacked {E : Trap → Prop} (hE : E .null) (hk0 : Distinct L k₀.free)
    (h : Image k₀ n g k d) (hlo : (n + 1) * PGSIZE ≤ sp) (hhi : sp ≤ (n + 2) * PGSIZE) :
    Sat E (fun r => Made k₀ r.1 d ∧ ∀ s ∈ r.2, Stacked n d k sp args r.1 s.1 s.2)
      (pushArgs d args argc k sp) := by
  induction args generalizing argc k sp with
  | nil =>
    refine sat_ok.2 ⟨h.made,fun s hs => ?_⟩
    rw [← Option.some.inj hs]
    exact ⟨.nil,hlo,id,fun _ _ _ => rfl⟩
  | cons arg args ih =>
    unfold pushArgs
    split
    next => exact sat_ok.2 ⟨h.made,by rintro _ ⟨⟩⟩
    next =>
      refine (copyLoopOut_spec hE hk0 h.kernel h.made (Nat.le_refl _) (pushAt_lt sp _)).bind
        fun r hr => ?_
      split
      next hdone =>
        have hw := hr.2 hdone
        have hlen : (arg ++ [0]).length = arg.length + 1 := by simp
        obtain ⟨hend,hguard⟩ := h.in_stack hw (by omega)
        rw [hlen] at hend hguard
        obtain ⟨haligned,hbelow,hnear⟩ := pushAt_in_stack hlo hhi h.top hend
        have hptr := hguard hnear
        have h1 := h.write hr.1 fun x hx => hw.other (by have := h.top; unfold PGSIZE at *; omega)
          (.inl (by unfold PGSIZE at *; omega))
        refine (ih h1 hptr (by omega)).bind fun r' hr' => ?_
        obtain ⟨k2,o⟩ := r'
        cases o with
        | none => exact sat_pure.2 ⟨hr'.1,by rintro _ ⟨⟩⟩
        | some s =>
          refine sat_pure.2 ⟨hr'.1,fun s' hs' => ?_⟩
          rw [← Option.some.inj hs']
          have hs := hr'.2 s rfl
          have hle := (hs.strings.congr fun _ _ _ => rfl).1
          refine ⟨.cons haligned hbelow (fun i hi => ?_) hs.strings,hs.above,
            fun _ => hs.aligned haligned,fun x hx hout => ?_⟩
          · have hx := (hw.reach (pushAt sp arg.length + i) (Nat.le_add_right _ _) (by omega)).1
            rw [hs.other _ hx (.inr (Nat.le_add_right _ _)),hw.bytesAt i hi]
          · rw [hs.other x hx (by omega),hw.other hx (by omega)]
      next => exact sat_pure.2 ⟨hr.1,by rintro _ ⟨⟩⟩

theorem BytesAt.append {a : ℕ} {l l' : List UInt8} (h : d.BytesAt k a (l ++ l')) :
    d.BytesAt k a l ∧ d.BytesAt k (a + l.length) l' := by
  refine ⟨fun i hi => ?_,fun i hi => ?_⟩
  · have hget := h i (by rw [length_append]; omega)
    rwa [getElem_append_left hi] at hget
  · have hget := h (l.length + i) (by rw [length_append]; omega)
    rw [getElem_append_right (Nat.le_add_right _ _)] at hget
    simpa [Nat.add_assoc] using hget

/-- The words one after the other. -/
theorem BytesAt.words {a i w : ℕ} {ws : List ℕ} (h : d.BytesAt k a (ws.flatMap wordBytes))
    (hw : ws[i]? = some w) : d.BytesAt k (a + 4 * i) (wordBytes w) := by
  induction ws generalizing a i with
  | nil => cases hw
  | cons v ws ih =>
    rw [flatMap_cons] at h
    obtain ⟨hfirst,hrest⟩ := BytesAt.append h
    cases i with
    | zero =>
      rw [← Option.some.inj hw]
      exact hfirst
    | succ i =>
      have hnext := ih hrest (i := i) hw
      have heq : a + (wordBytes v).length + 4 * i = a + 4 * (i + 1) := by
        change a + 4 + 4 * i = a + 4 * (i + 1)
        omega
      rwa [heq] at hnext

/-- What `main` finds in the stack page: its arguments, the pointers and the strings. -/
structure ArgStack (d : Pgdir) (k : Kmem) (sz esp : ℕ) (argv : List (List UInt8)) (ptrs : List ℕ) :
    Prop where
  length : ptrs.length = argv.length
  words : ∀ (i w : ℕ), ([0xffffffff, argv.length, esp + 12] ++ ptrs ++ [0])[i]? = some w →
    d.BytesAt k (esp + 4 * i) (wordBytes w)
  strings : ∀ (i ptr : ℕ) (arg : List UInt8), ptrs[i]? = some ptr → argv[i]? = some arg →
    ptr % 4 = 0 ∧ d.BytesAt k ptr (arg ++ [0])
  page : sz ≤ esp + PGSIZE
  inside : ∀ (i ptr : ℕ) (arg : List UInt8), ptrs[i]? = some ptr → argv[i]? = some arg →
    esp + 4 * (argv.length + 4) ≤ ptr ∧ ptr + (arg.length + 1) ≤ sz
  top : esp + 4 * (argv.length + 4) ≤ sz
  apart : ∀ (i j ptr ptr' : ℕ) (arg' : List UInt8), i < j → ptrs[i]? = some ptr →
    ptrs[j]? = some ptr' → argv[j]? = some arg' → ptr' + (arg'.length + 1) ≤ ptr

section
variable (h : Strings d k low sp args ptrs)
include h

theorem Strings.length : ptrs.length = args.length := by
  induction h with
  | nil => rfl
  | cons _ _ _ _ ih => rw [length_cons,length_cons,ih]

theorem Strings.get {i ptr : ℕ} {arg : List UInt8}
    (hp : ptrs[i]? = some ptr) (ha : args[i]? = some arg) :
    ptr % 4 = 0 ∧ d.BytesAt k ptr (arg ++ [0]) ∧ low ≤ ptr ∧ ptr + (arg.length + 1) ≤ sp := by
  induction h generalizing i with
  | nil => cases hp
  | @cons sp ptr' arg' args ptrs aligned below bytes rest ih =>
    have hle := (rest.congr fun _ _ _ => rfl).1
    cases i with
    | zero =>
      rw [List.getElem?_cons_zero,Option.some.injEq] at hp ha
      subst hp ha
      exact ⟨aligned,bytes,hle,below⟩
    | succ i =>
      obtain ⟨h1,h2,h3,h4⟩ := ih hp ha
      exact ⟨h1,h2,h3,by omega⟩

/-- A later string is below an earlier one. -/
theorem Strings.apart {i j ptr ptr' : ℕ} {arg' : List UInt8}
    (hij : i < j) (hp : ptrs[i]? = some ptr) (hp' : ptrs[j]? = some ptr')
    (ha' : args[j]? = some arg') : ptr' + (arg'.length + 1) ≤ ptr := by
  induction h generalizing i j with
  | nil => cases hp
  | @cons sp ptr1 arg1 args ptrs aligned below bytes rest ih =>
    obtain ⟨j,rfl⟩ : ∃ j', j = j' + 1 := ⟨j - 1,by omega⟩
    cases i with
    | zero =>
      rw [List.getElem?_cons_zero,Option.some.injEq] at hp
      rw [← hp]
      exact (rest.get hp' ha').2.2.2
    | succ i => exact ih (by omega) hp hp' ha'

end

theorem pushStack_argStack {E : Trap → Prop} (hE : E .null) (hk0 : Distinct L k₀.free)
    (h : Image k₀ n g k d) : Sat E (fun r => Made k₀ r.1 d ∧ ∀ esp ∈ r.2, Image k₀ n g r.1 d ∧
        ∃ ptrs, ArgStack d r.1 ((n + 2) * PGSIZE) esp argv ptrs)
      (pushStack d argv k ((n + 2) * PGSIZE)) := by
  have htop := h.top
  have hsucc : (n + 2) * PGSIZE = (n + 1) * PGSIZE + PGSIZE := Nat.add_one_mul (n + 1) PGSIZE
  refine (pushArgs_stacked hE hk0 h (by omega) (Nat.le_refl _)).bind fun r hr => ?_
  obtain ⟨k1,o⟩ := r
  cases o with
  | none => exact sat_pure.2 ⟨hr.1,nofun⟩
  | some s =>
    obtain ⟨low,ptrs⟩ := s
    obtain ⟨hstrings,habove,-,hother⟩ := hr.2 _ rfl
    have hlen := hstrings.length
    have hlow := (hstrings.congr fun _ _ _ => rfl).1
    have h₁ : Image k₀ n g k1 d := h.write hr.1 fun x hx => hother x
      (by unfold PGSIZE at *; omega) (.inl (by unfold PGSIZE at *; omega))
    have hbytes : ((ustack low ptrs).flatMap wordBytes).length = 4 * (ptrs.length + 4) := by
      rw [length_flatMap_wordBytes]
      simp only [ustack,length_append,length_cons,length_nil]
      omega
    refine (copyLoopOut_spec hE hk0 h.kernel hr.1 (Nat.le_refl _)
      (Nat.mod_lt _ (by decide))).bind fun r hr' => sat_pure.2 ⟨hr'.1,fun esp hesp => ?_⟩
    split at hesp
    next hdone =>
      have hw := hr'.2 hdone
      obtain ⟨hend,hguard⟩ := h₁.in_stack hw (by omega)
      rw [hbytes] at hend hguard
      rw [← Option.some.inj hesp]
      have hesp' : (low + 2 ^ 32 - (3 + ptrs.length + 1) * 4) % 2 ^ 32 + 4 * (ptrs.length + 4) = low := by
        unfold KERNBASE at htop
        omega
      have hptr : (low + 2 ^ 32 - (ptrs.length + 1) * 4) % 2 ^ 32 =
          (low + 2 ^ 32 - (3 + ptrs.length + 1) * 4) % 2 ^ 32 + 12 := by
        unfold KERNBASE at htop
        omega
      have hwords := hw.bytesAt
      rw [ustack,hptr,hlen] at hwords
      rw [hlen] at hesp' hw hend hguard
      rw [hlen]
      generalize (low + 2 ^ 32 - (3 + argv.length + 1) * 4) % 2 ^ 32 = esp' at *
      have hesp'' := hguard (by omega)
      have hkeep : ∀ x, x < KERNBASE → esp' + 4 * (argv.length + 4) ≤ x ∨ x < esp' →
          d.byte r.1 x = d.byte k1 x := by
        intro x hx hout
        refine hw.other hx ?_
        rw [hbytes,hlen]
        omega
      have hst := (hstrings.congr fun x h1 h2 => hkeep x (by omega) (by omega)).2
      refine ⟨h₁.write hr'.1 fun x hx => hkeep x (by unfold PGSIZE at *; omega)
        (by unfold PGSIZE at *; omega),ptrs,⟨hlen,fun i w hi => BytesAt.words hwords hi,
        fun i ptr arg hp ha => ?_,by omega,fun i ptr arg hp ha => ?_,by omega,
        fun i j ptr ptr' arg' hij hp hp' ha' => hst.apart hij hp hp' ha'⟩⟩
      · obtain ⟨h1,h2,-,-⟩ := hst.get hp ha
        exact ⟨h1,h2⟩
      · obtain ⟨-,-,h3,h4⟩ := hst.get hp ha
        exact ⟨by omega,h4⟩
    next => cases hesp

theorem Image.copyout (h : Image k₀ n g k d) (hlo : (n + 1) * PGSIZE ≤ va)
    (hhi : va + buf.length ≤ (n + 2) * PGSIZE) (hbuf : 0 < buf.length) :
    ∃ k', copyout k d va buf = .ok (k',true) := by
  have hpage : va / PGSIZE = n + 1 := by
    unfold PGSIZE at *
    omega
  obtain ⟨pa,hpa⟩ := h.mapped (n + 1) (by omega)
  have hwalk : d.walk va = true := by
    rw [walk_iff,PDX,hpage]
    exact h.made.backed _ (hpa ▸ Option.some_ne_none _)
  have huser : userPage d va = some pa := by
    rw [userPage,PGROUNDDOWN,entry_page,hpage,hpa]
    simp
  have hka : uva2ka d (PGROUNDDOWN va) = .ok (some pa) := by
    rw [uva2ka,walk_rounddown,if_pos hwalk,← huser]
    rfl
  have hall : min (PGSIZE - (va - PGROUNDDOWN va)) buf.length = buf.length := by
    unfold PGROUNDDOWN PGSIZE at *
    omega
  obtain ⟨m,hm⟩ : ∃ m, buf.length = m + 1 := ⟨buf.length - 1,by omega⟩
  refine ⟨k.memmove (pa + (va - PGROUNDDOWN va)) buf,?_⟩
  rw [Vm.copyout,hm,copyLoopOut,if_neg (length_pos_iff.1 hbuf)]
  dsimp only [bind,Except.bind]
  rw [hka]
  rw [hall,take_length,drop_length]
  cases m <;> rfl

/-- The room that the strings take at most. -/
def room (args : List (List UInt8)) : ℕ := (args.map fun arg => arg.length + 4).sum

/-- Strings that fit into the stack page are pushed. -/
theorem pushArgs_total (hk0 : Distinct L k₀.free) (h : Image k₀ n g k d)
    (hargc : argc + args.length ≤ MAXARG) (hlo : (n + 1) * PGSIZE + room args ≤ sp)
    (hhi : sp ≤ (n + 2) * PGSIZE) : ∃ k' low ptrs,
      pushArgs d args argc k sp = .ok (k',some (low,ptrs)) ∧ sp ≤ low + room args := by
  induction args generalizing argc k sp with
  | nil => exact ⟨k,sp,[],rfl,Nat.le_add_right _ _⟩
  | cons arg args ih =>
    have hroom : room (arg :: args) = arg.length + 4 + room args := rfl
    rw [length_cons] at hargc
    have htop := h.top
    have hat : pushAt sp arg.length + (arg.length + 1) ≤ sp ∧
        sp ≤ pushAt sp arg.length + (arg.length + 4) := by
      unfold pushAt KERNBASE PGSIZE at *
      omega
    have hlen : (arg ++ [0]).length = arg.length + 1 := by simp
    have hnext : (n + 1) * PGSIZE + room args ≤ pushAt sp arg.length := by omega
    have hend : pushAt sp arg.length + (arg ++ [0]).length ≤ (n + 2) * PGSIZE := by omega
    obtain ⟨k1,hcopy⟩ := h.copyout (by omega) hend (by omega)
    have hspec := (copyLoopOut_spec (E := fun _ => True) trivial hk0 h.kernel h.made (Nat.le_refl _)
      (pushAt_lt sp arg.length)).ok hcopy
    have hw := hspec.2 rfl
    have h1 := h.write hspec.1 fun x hx => hw.other (by unfold PGSIZE at *; omega)
      (.inl (by unfold PGSIZE at *; omega))
    obtain ⟨k2,low,ptrs,hrest,hle⟩ :=
      ih h1 (show argc + 1 + args.length ≤ MAXARG by omega) hnext (by omega)
    refine ⟨k2,low,pushAt sp arg.length :: ptrs,?_,by omega⟩
    rw [pushArgs,if_neg (by omega)]
    dsimp only [bind,Except.bind]
    rw [hcopy]
    dsimp only
    rw [if_pos rfl,hrest]
    rfl

/-- Arguments that fit into the stack page are laid out. -/
theorem pushStack_total (hk0 : Distinct L k₀.free) (h : Image k₀ n g k d)
    (hargc : argv.length ≤ MAXARG) (hroom : room argv + 4 * (argv.length + 4) ≤ PGSIZE) :
    ∃ k' esp, pushStack d argv k ((n + 2) * PGSIZE) = .ok (k',some esp) := by
  have htop := h.top
  have hsucc : (n + 2) * PGSIZE = (n + 1) * PGSIZE + PGSIZE := Nat.add_one_mul (n + 1) PGSIZE
  obtain ⟨k1,low,ptrs,hargs,hle⟩ := pushArgs_total hk0 h
    (show 0 + argv.length ≤ MAXARG by omega) (by omega) (Nat.le_refl _)
  have hst := (pushArgs_stacked (E := fun _ => True) trivial hk0 h (by omega) (Nat.le_refl _)).ok hargs
  have hs : Stacked n d k ((n + 2) * PGSIZE) argv k1 low ptrs := hst.2 _ rfl
  obtain ⟨hstrings,habove,-,hother⟩ := hs
  have hlen := hstrings.length
  have hlow := (hstrings.congr fun _ _ _ => rfl).1
  have h1 : Image k₀ n g k1 d := h.write hst.1 fun x hx => hother x
    (by unfold PGSIZE at *; omega) (.inl (by unfold PGSIZE at *; omega))
  have hbytes : ((ustack low ptrs).flatMap wordBytes).length = 4 * (ptrs.length + 4) := by
    rw [length_flatMap_wordBytes]
    simp only [ustack,length_append,length_cons,length_nil]
    omega
  have hesp : (low + 2 ^ 32 - (3 + ptrs.length + 1) * 4) % 2 ^ 32 + 4 * (ptrs.length + 4) = low := by
    unfold KERNBASE PGSIZE at *
    omega
  have hend : (low + 2 ^ 32 - (3 + ptrs.length + 1) * 4) % 2 ^ 32 +
      ((ustack low ptrs).flatMap wordBytes).length ≤ (n + 2) * PGSIZE := by
    rw [hbytes,hesp]
    exact hlow
  obtain ⟨k2,hcopy⟩ := h1.copyout (by omega) hend (by omega)
  refine ⟨k2,(low + 2 ^ 32 - (3 + ptrs.length + 1) * 4) % 2 ^ 32,?_⟩
  rw [pushStack,hargs]
  dsimp only [bind,Except.bind]
  rw [hcopy]
  rfl

end Xv6.Vm
