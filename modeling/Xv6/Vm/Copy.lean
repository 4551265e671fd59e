import Xv6.Vm.Grow

/-! # `copyuvm`

The child gets the bytes and the flags of the parent in pages of its own, or no page at all. -/
namespace Xv6.Vm
open Function Result List

/-- The pages of a directory are in use: none of them is free. -/
structure InUse (k : Kmem) (d : Pgdir) : Prop where
  backed : Backed d
  notFree : ∀ pa ∈ d.pages, pa ∉ k.free
  aligned : ∀ pa ∈ d.users, pa % PGSIZE = 0

def Pgdir.store (d : Pgdir) (k : Kmem) (va : ℕ) (b : UInt8) : Kmem :=
  match d.present va with
  | none => k
  | some e => { k with mem := update k.mem (e.addr + va % PGSIZE) b }

def Pgdir.stores (d : Pgdir) (k : Kmem) (ws : List (ℕ × UInt8)) : Kmem :=
  ws.foldl (fun k w => d.store k w.1 w.2) k

variable {L : Layout} {k k₀ k₁ k' : Kmem} {d d' old : Pgdir} {c m mem sz va : ℕ}

/-- User pages of one directory are not written through the other. -/
theorem byte_store (hb : Backed d) (hb' : Backed d') (ha : ∀ pa ∈ d.users, pa % PGSIZE = 0)
    (ha' : ∀ pa ∈ d'.users, pa % PGSIZE = 0) (hdis : ∀ pa ∈ d.users, pa ∉ d'.users)
    {va va' : ℕ} (hva : va < KERNBASE) (hva' : va' < KERNBASE) (k : Kmem) (b : UInt8) :
    d'.byte (d.store k va b) va' = d'.byte k va' := by
  unfold Pgdir.store
  split
  next => rfl
  next e he =>
    rw [present_eq hb] at he
    have hmem := mem_users_of (page_lt_NUSER hva) he
    refine byte_congr rfl fun e' he' x hx => ?_
    rw [present_eq hb'] at he'
    have hmem' := mem_users_of (page_lt_NUSER hva') he'
    refine update_of_ne (fun heq => hdis _ hmem ?_) _ _
    have hround := congrArg PGROUNDDOWN heq
    rw [rounddown_add (ha' _ hmem') hx,rounddown_add (ha _ hmem) (Nat.mod_lt va (by decide))] at hround
    exact hround ▸ hmem'

theorem byte_stores (hb : Backed d) (hb' : Backed d') (ha : ∀ pa ∈ d.users, pa % PGSIZE = 0)
    (ha' : ∀ pa ∈ d'.users, pa % PGSIZE = 0) (hdis : ∀ pa ∈ d.users, pa ∉ d'.users)
    {ws : List (ℕ × UInt8)} (hws : ∀ w ∈ ws, w.1 < KERNBASE) (hva : va < KERNBASE) (k : Kmem) :
    d'.byte (d.stores k ws) va = d'.byte k va := by
  induction ws generalizing k with
  | nil => rfl
  | cons w ws ih =>
    rw [Pgdir.stores,foldl_cons]
    exact (ih (fun w hw => hws w (mem_cons_of_mem _ hw)) _).trans
      (byte_store hb hb' ha ha' hdis (hws w (mem_cons_self ..)) hva k w.2)

/-- The pages up to `c` are copied. -/
structure Copied (old : Pgdir) (k₀ : Kmem) (c : ℕ) (k : Kmem) (d : Pgdir) : Prop where
  copy : ∀ j, j < c → ∃ e pa, old.pte j = some e ∧ d.pte j = some ⟨pa,e.w,e.u⟩ ∧
    ∀ x, x < PGSIZE → k.mem (pa + x) = k₀.mem (e.addr + x)
  empty : ∀ j, c ≤ j → j < NUSER → d.pte j = none

theorem page_getD (k : Kmem) (pa : ℕ) {x : ℕ} (hx : x < PGSIZE) :
    (k.page pa).getD x 0 = k.mem (pa + x) := by
  rw [Kmem.page,getD_eq_getElem?_getD,List.getElem?_map,List.getElem?_range hx]
  rfl

theorem length_page (k : Kmem) (pa : ℕ) : (k.page pa).length = PGSIZE := by
  rw [Kmem.page,length_map,length_range]

/-- The bytes of a page that is copied whole. -/
theorem memmove_page (k : Kmem) (mem pa : ℕ) {x : ℕ} (hx : x < PGSIZE) :
    (k.memmove mem (k.page pa)).mem (mem + x) = k.mem (pa + x) := by
  rw [Kmem.memmove,length_page]
  dsimp only
  rw [if_pos ⟨by omega,by omega⟩,Nat.add_sub_cancel_left,page_getD k pa hx]

theorem Made.added {w u : Bool} {n : ℕ} {k2 : Kmem} (h : Made k₀ k d)
    (ha : Added n mem w u k k2 d k' d' true) : Made k₀ k' d' where
  backed := ha.backed
  pages := (ha.mapped rfl).2.trans h.pages
  outside := h.outside.trans (ha.outside.mono fun _ hpa => h.free_sub hpa)

theorem Made.kfree {w u : Bool} {n : ℕ} {k2 : Kmem} (h : Made k₀ k d) (hk0 : Distinct L k₀.free)
    (ha : Added n mem w u k k2 d k' d' false) :
    ∃ k'', kfree L k' mem = .ok k'' ∧ Made k₀ k'' d' := by
  have hmem := h.free_sub ha.fresh
  have hpage := hk0.page mem hmem
  refine ⟨_,hpage.kfree k',ha.backed,?_,?_⟩
  · rw [← h.pages,← (ha.failed rfl).2]
    rfl
  · refine (h.outside.trans (ha.outside.mono fun _ hpa => h.free_sub hpa)).trans ?_
    exact Outside.memset hpage.aligned hmem k' 1

theorem Copied.added {e : Pte} {k2 : Kmem} (h : Copied old k₀ c k d) (ho : Owned L k d)
    (hc : c < NUSER) (he : old.pte c = some e) (ha : Added c mem e.w e.u k k2 d k' d' true)
    (hpage : ∀ x, x < PGSIZE → k2.mem (mem + x) = k₀.mem (e.addr + x)) :
    Copied old k₀ (c + 1) k' d' := by
  obtain ⟨hpte,-⟩ := ha.mapped rfl
  refine ⟨fun j hj => ?_,fun j hj hj' => ?_⟩
  · by_cases heq : j = c
    · refine ⟨e,mem,heq ▸ he,by rw [hpte,heq,Function.update_self],fun x hx => ?_⟩
      rw [ha.page x hx,hpage x hx]
    · obtain ⟨e',pa,he',hpa,hbytes⟩ := h.copy j (by omega)
      refine ⟨e',pa,he',by rw [hpte,update_of_ne heq,hpa],fun x hx => ?_⟩
      have hmem := Owned.user_mem (show j < NUSER by omega) hpa
      rw [ha.outside.byte (ho.page hmem).aligned (ho.notMem hmem) hx,hbytes x hx]
  · rw [hpte,update_of_ne (by omega)]
    exact h.empty j (by omega) hj'

/-- From the pages up to `c` on, the loop copies the others, or frees them all. -/
theorem copyLoop_copied {E : Trap → Prop} (hk0 : Distinct L k₀.free) (hold : InUse k₀ old)
    (hm : ∀ j, j * PGSIZE < sz ↔ j < m) (hm' : m ≤ NUSER)
    (hpresent : ∀ j, j < m → old.pte j ≠ none) (t : ℕ) (hct : c + t = m) (h : Made k₀ k d)
    (hc : Copied old k₀ c k d) :
    Sat E (MadeOr k₀ (Copied old k₀ m)) (copyLoop L old (pages (c * PGSIZE) sz) k d) := by
  induction t generalizing c k d with
  | zero =>
    rw [pages_nil (Nat.not_lt.1 (mt (hm c).1 (show ¬ c < m by omega)))]
    rw [show c = m by omega] at hc
    exact sat_ok.2 (madeOr_some h hc)
  | succ t ih =>
    have hcm : c < m := by omega
    have hcu : c < NUSER := Nat.lt_of_lt_of_le hcm hm'
    have ho := h.owned hk0
    obtain ⟨e,he⟩ := Option.ne_none_iff_exists'.1 (hpresent c hcm)
    have hwalk : old.walk (c * PGSIZE) = true := by
      rw [walk_iff,PDX_page]
      exact hold.backed c (he ▸ Option.some_ne_none e)
    have hmem_e := mem_users_of hcu he
    rw [pages_cons ((hm c).2 hcm),copyLoop,if_pos hwalk,entry_page,he]
    dsimp only
    split
    next => exact h.freevm_or hk0
    next k₁ mem hkalloc =>
      have hmem : mem ∈ k.free := free_kalloc hkalloc ▸ Multiset.mem_cons_self _ _
      have hpage := hk0.page mem (h.free_sub hmem)
      have hout : Outside {mem} k₁ (k₁.memmove mem (k₁.page e.addr)) :=
        Outside.memmove 0 hpage.aligned (Multiset.mem_singleton_self mem) k₁
          (by rw [length_page,Nat.zero_add])
      obtain ⟨k',d',b,hmap,ha⟩ := ho.mappages hcu (hc.empty c (Nat.le_refl c) hcu) hkalloc
        (Eq.refl (k₁.memmove mem (k₁.page e.addr)).free) hout e.w e.u
      rw [hmap]
      dsimp only [bind,Except.bind]
      cases b with
      | true =>
        rw [if_pos rfl]
        have hbytes : ∀ x, x < PGSIZE →
            (k₁.memmove mem (k₁.page e.addr)).mem (mem + x) = k₀.mem (e.addr + x) := by
          intro x hx
          rw [memmove_page k₁ mem e.addr hx,(kalloc_some hkalloc).2]
          exact h.outside.byte (hold.aligned _ hmem_e)
            (hold.notFree _ (Pgdir.mem_pages.2 (.inr (.inr hmem_e)))) hx
        have hnext := ih (by omega) (h.added ha) (hc.added ho hcu he ha hbytes)
        rwa [Nat.add_one_mul] at hnext
      | false =>
        obtain ⟨k'',hfree,hmade⟩ := h.kfree hk0 ha
        rw [if_neg Bool.false_ne_true,hfree]
        exact hmade.freevm_or hk0

/-- The child has the memory of the parent in pages of its own, and what is written later through one
of the directories is not read through the other. -/
structure Child (old : Pgdir) (sz : ℕ) (k₀ k : Kmem) (d : Pgdir) : Prop where
  bytes : ∀ va, va < PGROUNDUP sz → d.byte k va = old.byte k₀ va
  flags : ∀ va, va < PGROUNDUP sz → ∃ e e', old.present va = some e ∧ d.present va = some e' ∧
    e'.w = e.w ∧ e'.u = e.u
  above : ∀ va, PGROUNDUP sz ≤ va → va < KERNBASE → d.present va = none
  apart : ∀ pa ∈ d.pages, pa ∉ old.pages
  parent : ∀ va, va < KERNBASE → old.byte k va = old.byte k₀ va
  childStores : ∀ ws : List (ℕ × UInt8), (∀ w ∈ ws, w.1 < KERNBASE) → ∀ va, va < KERNBASE →
    old.byte (d.stores k ws) va = old.byte k va
  parentStores : ∀ ws : List (ℕ × UInt8), (∀ w ∈ ws, w.1 < KERNBASE) → ∀ va, va < KERNBASE →
    d.byte (old.stores k ws) va = d.byte k va

theorem InUse.byte (h : InUse k₀ old) (hout : Outside k₀.free k₀ k) (hva : va < KERNBASE) :
    old.byte k va = old.byte k₀ va := by
  refine byte_congr rfl fun e he x hx => ?_
  rw [present_eq h.backed] at he
  have hmem := mem_users_of (page_lt_NUSER hva) he
  exact hout.byte (h.aligned _ hmem) (h.notFree _ (Pgdir.mem_pages.2 (.inr (.inr hmem)))) hx

theorem Copied.child (h : Copied old k₀ m k d) (hmade : Made k₀ k d) (hk0 : Distinct L k₀.free)
    (hold : InUse k₀ old) (hm : PGROUNDUP sz = m * PGSIZE) : Child old sz k₀ k d := by
  have ho := hmade.owned hk0
  have halign : ∀ pa ∈ d.users, pa % PGSIZE = 0 :=
    fun pa hpa => (ho.page (Pgdir.mem_pages.2 (.inr (.inr hpa)))).aligned
  have hapart : ∀ pa ∈ d.pages, pa ∉ old.pages :=
    fun pa hpa hpa' => hold.notFree pa hpa' (hmade.pages_sub hpa)
  have husers : ∀ pa ∈ d.users, pa ∉ old.users := fun pa hpa hpa' =>
    hapart pa (Pgdir.mem_pages.2 (.inr (.inr hpa))) (Pgdir.mem_pages.2 (.inr (.inr hpa')))
  refine ⟨fun va hva => ?_,fun va hva => ?_,fun va hlo hhi => ?_,hapart,
    fun va hva => hold.byte hmade.outside hva,
    fun ws hws va hva => byte_stores ho.backed hold.backed halign hold.aligned husers hws hva k,
    fun ws hws va hva => byte_stores hold.backed ho.backed hold.aligned halign
      (fun pa hpa hpa' => husers pa hpa' hpa) hws hva k⟩
  · obtain ⟨e,pa,he,hpa,hbytes⟩ := h.copy (va / PGSIZE) (lt_page.2 (hm ▸ hva))
    rw [byte_of_pte ho.backed hpa,byte_of_pte hold.backed he,hbytes _ (Nat.mod_lt va (by decide))]
  · obtain ⟨e,pa,he,hpa,-⟩ := h.copy (va / PGSIZE) (lt_page.2 (hm ▸ hva))
    refine ⟨e,⟨pa,e.w,e.u⟩,?_,?_,rfl,rfl⟩
    · rw [present_eq hold.backed,he]
    · rw [present_eq ho.backed,hpa]
  · rw [present_eq ho.backed]
    refine h.empty _ (Nat.not_lt.1 fun hc => ?_) (page_lt_NUSER hhi)
    exact absurd (lt_page.1 hc) (Nat.not_lt.2 (hm ▸ hlo))

/-- `copyuvm` gives the child an equal and separate memory, or takes no page. -/
theorem copyuvm_child (hL : L.DataOk) (hk : Distinct L k.free) (hold : InUse k old)
    (hsz : sz ≤ KERNBASE) (hpresent : ∀ va, va < PGROUNDUP sz → old.present va ≠ none) :
    ∃ k' r, copyuvm L k old sz = .ok (k',r) ∧
      (r = none → Undone k k' ∧ ∀ va, va < KERNBASE → old.byte k' va = old.byte k va) ∧
      ∀ d ∈ r, Child old sz k k' d := by
  obtain ⟨m,hm,hm₁,hm₂⟩ := PGROUNDUP_page hsz
  have hm' : m ≤ NUSER := by
    rw [NUSER_eq]
    unfold KERNBASE PGSIZE at *
    omega
  have hlt : ∀ j, j * PGSIZE < sz ↔ j < m := by
    intro j
    unfold PGSIZE at *
    omega
  have hpte : ∀ j, j < m → old.pte j ≠ none := by
    intro j hj
    rw [← present_page hold.backed]
    refine hpresent _ ?_
    rw [hm]
    exact Nat.mul_lt_mul_of_pos_right hj (by decide)
  have hrun : Sat (fun _ => False) (MadeOr k (Copied old k m)) (copyuvm L k old sz) := by
    refine (setupkvm_made hL hk).bind fun r hr => ?_
    obtain ⟨k₁,d⟩ := r
    cases d with
    | none => exact sat_ok.2 (madeOr_none (hr.undone rfl) _)
    | some d =>
      obtain ⟨hmade,hshows⟩ := hr.made d rfl
      have hstart : Copied old k 0 k₁ d := ⟨nofun,fun j _ hj => hshows.user hj hL⟩
      have hloop := copyLoop_copied (E := fun _ => False) hk hold hlt hm' hpte m (Nat.zero_add m)
        hmade hstart
      rwa [Nat.zero_mul] at hloop
  obtain ⟨⟨k',r⟩,hok,hr⟩ := hrun.returns
  refine ⟨k',r,hok,fun hnone => ?_,fun d hd => ?_⟩
  · have hundone := hr.undone hnone
    exact ⟨hundone,fun va hva => hold.byte hundone.outside hva⟩
  · obtain ⟨hmade,hcopied⟩ := hr.made d hd
    exact hcopied.child hmade hk hold hm

theorem onePage_inUse : InUse freePages onePage.pgdir where
  backed := onePage_backed
  notFree pa hpa hfree := by
    obtain ⟨i,hi,heq⟩ := mem_freePages.1 hfree
    have hpa' : pa = 0x600000 ∨ pa = 0x601000 ∨ pa = 0x602000 := by simpa [onePage_pages] using hpa
    unfold PGSIZE at heq
    omega
  aligned pa hpa := by
    have hpages := Pgdir.mem_pages.2 (.inr (.inr hpa))
    have hpa' : pa = 0x600000 ∨ pa = 0x601000 ∨ pa = 0x602000 := by
      simpa [onePage_pages] using hpages
    rcases hpa' with rfl | rfl | rfl <;> decide

theorem copyuvm_child_onePage :
    ∃ k' r, copyuvm ⟨0x80108000,0x80118000⟩ freePages onePage.pgdir PGSIZE = .ok (k',r) ∧
      ∀ d ∈ r, Child onePage.pgdir PGSIZE freePages k' d := by
  obtain ⟨k',r,hrun,-,hchild⟩ := copyuvm_child (L := ⟨0x80108000,0x80118000⟩)
    ⟨by decide,by decide,by decide⟩ freePages_distinct onePage_inUse
    (show PGSIZE ≤ KERNBASE by decide) fun va hva =>
      (onePage_sound.present va (Nat.lt_trans hva (by decide))).2 hva
  exact ⟨k',r,hrun,hchild⟩

end Xv6.Vm
