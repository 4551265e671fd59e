import Xv6.Vm.Kmap
import Xv6.Vm.Owned

/-! # `mappages` of a new page, `setupkvm` and `allocuvm`

New pages come out of the free list, and pages that could not be mapped go back. -/
namespace Xv6.Vm
open Function Result List

variable {L : Layout} {k k₀ k' k'' k₁ k₂ : Kmem} {d d₀ d₁ d₂ d' d'' : Pgdir} {w u b : Bool}
  {n m i j c pa mem va oldsz newsz : ℕ}

/-- A page `mem` of the free list, with its bytes from `k₂`, is mapped at the page `n`, or there is no
table for it. -/
structure Added (n mem : ℕ) (w u : Bool) (k k₂ : Kmem) (d : Pgdir) (k' : Kmem) (d' : Pgdir)
    (done : Bool) : Prop where
  backed : Backed d'
  addr : d'.addr = d.addr
  keeps : KeepsTables d d'
  fresh : mem ∈ k.free
  sub : ∀ pa ∈ k'.free, pa ∈ k.free
  outside : Outside k.free k k'
  page : ∀ x, x < PGSIZE → k'.mem (mem + x) = k₂.mem (mem + x)
  mapped : done = true → d'.pte = update d.pte n (some ⟨mem,w,u⟩) ∧
    k'.free + d'.pages = k.free + d.pages
  failed : done = false → d'.pte = d.pte ∧ {mem} + k'.free + d'.pages = k.free + d.pages

theorem mappages_page (hn : n < NUSER) :
    mappages k d (n * PGSIZE) PGSIZE pa w u =
      mapLoop (n * PGSIZE) w u (2 ^ 20) k d (n * PGSIZE) pa := by
  have hle : n * PGSIZE + 1 * PGSIZE ≤ 2 ^ 32 := by
    rw [NUSER_eq] at hn
    unfold PGSIZE
    omega
  have hsize : PGSIZE = 1 * PGSIZE % 2 ^ 32 := by decide
  have hlast : mapLoop (n * PGSIZE) w u = mapLoop ((n + 1 - 1) * PGSIZE) w u := by
    rw [Nat.add_sub_cancel]
  rw [hlast,← mappages_eq 1 hle (Nat.le_refl 1),← hsize]

theorem Owned.mappages (h : Owned L k d) (hn : n < NUSER) (hnone : d.pte n = none)
    (hk : kalloc k = some (k₁,mem)) (hfree : k₂.free = k₁.free) (hout : Outside {mem} k₁ k₂)
    (w u : Bool) : ∃ k' d' b, mappages k₂ d (n * PGSIZE) PGSIZE mem w u = .ok (k',d',b) ∧
      Added n mem w u k k₂ d k' d' b := by
  have hn' : n < 0x80000 := NUSER_eq ▸ hn
  have hcons := free_kalloc hk
  have hmem : mem ∈ k.free := hcons ▸ Multiset.mem_cons_self _ _
  have hsub1 : ∀ pa ∈ k₁.free, pa ∈ k.free := fun pa hpa => hcons ▸ Multiset.mem_cons_of_mem hpa
  have hdist : Distinct L k.free := h.distinct.mono (Multiset.le_add_right _ _)
  have hpage := hdist.page mem hmem
  have hmem1 : mem ∉ k₁.free := by
    have hnodup := hdist.nodup
    rw [hcons] at hnodup
    exact (Multiset.nodup_cons.1 hnodup).1
  have haligned : ∀ pa ∈ k₂.free, pa % PGSIZE = 0 :=
    fun pa hpa => (hdist.page pa (hsub1 pa (hfree ▸ hpa))).aligned
  have hlt : mem < 2 ^ 32 := Nat.lt_trans hpage.below (by decide)
  have hmap : Sat (fun _ => False) (fun r => Mapping w u n n mem k₂ d r.1 r.2.1 r.2.2)
      (mapLoop (n * PGSIZE) w u (2 ^ 20) k₂ d (n * PGSIZE) mem) :=
    mapLoop_spec k₂ mem h.backed (Nat.le_refl n) (by omega) (by omega)
      fun j h1 h2 hne => hne (Nat.le_antisymm h2 h1 ▸ hnone)
  have htabled : Sat (· = .remap) (fun r => Tabled k₂ d r.1 r.2.1)
      (mapLoop (n * PGSIZE) w u (2 ^ 20) k₂ d (n * PGSIZE) mem) :=
    mapLoop_tabled h.backed haligned (by unfold PGSIZE; omega)
  rw [mappages_page hn]
  cases hrun : mapLoop (n * PGSIZE) w u (2 ^ 20) k₂ d (n * PGSIZE) mem with
  | error t => exact (hmap.error hrun).elim
  | ok r =>
    obtain ⟨k',d',b⟩ := r
    have hp := hmap.ok hrun
    have ht := htabled.ok hrun
    have htables : k'.free + d'.tables = k₁.free + d.tables := hfree ▸ ht.tables
    refine ⟨k',d',b,rfl,ht.backed,ht.addr,ht.keeps,hmem,?_,?_,?_,?_,?_⟩
    · exact fun pa hpa => hsub1 pa (hfree ▸ ht.sub pa hpa)
    · have h₁ : Outside k.free k k₁ := fun a _ => congrFun (kalloc_some hk).2 a
      have h₂ := hout.mono (T := k.free) fun a ha => Multiset.mem_singleton.1 ha ▸ hmem
      have h3 := ht.outside.mono (T := k.free) fun a ha => hsub1 a (hfree ▸ ha)
      exact (h₁.trans h₂).trans h3
    · exact fun x hx => ht.outside.byte hpage.aligned (hfree ▸ hmem1) hx
    · intro hb
      have hpte : d'.pte = update d.pte n (some ⟨mem,w,u⟩) := by
        funext j
        by_cases hj : j = n
        · obtain ⟨a,ha,haddr⟩ := hp.mapped hb n (Nat.le_refl n) (Nat.le_refl n)
          rw [hj,update_self,ha,haddr hlt,Nat.sub_self,Nat.zero_mul,Nat.add_zero,
            Nat.mod_eq_of_lt hlt]
        · rw [update_of_ne hj,hp.pte j (by omega)]
      have husers : d'.users = d.users + {mem} := by simpa [hnone] using users_update hn hpte
      refine ⟨hpte,?_⟩
      rw [Pgdir.pages,Pgdir.pages,ht.addr,husers,hcons,← Multiset.singleton_add]
      calc k'.free + ({d.addr} + d'.tables + (d.users + {mem}))
          = k'.free + d'.tables + ({d.addr} + d.users + {mem}) := by abel
        _ = k₁.free + d.tables + ({d.addr} + d.users + {mem}) := by rw [htables]
        _ = {mem} + k₁.free + ({d.addr} + d.tables + d.users) := by abel
    · intro hb
      have hpte : d'.pte = d.pte := by
        funext j
        by_cases hj : j = n
        · rw [hj,(hp.failed hb).1]
        · exact hp.pte j (by omega)
      have husers : d'.users = d.users := users_congr fun j _ => by rw [hpte]
      refine ⟨hpte,?_⟩
      rw [Pgdir.pages,Pgdir.pages,ht.addr,husers,hcons,← Multiset.singleton_add]
      calc {mem} + k'.free + ({d.addr} + d'.tables + d.users)
          = k'.free + d'.tables + ({d.addr} + d.users + {mem}) := by abel
        _ = k₁.free + d.tables + ({d.addr} + d.users + {mem}) := by rw [htables]
        _ = {mem} + k₁.free + ({d.addr} + d.tables + d.users) := by abel

/-- No page is taken. -/
structure Undone (k₀ k : Kmem) : Prop where
  free : k.free = k₀.free
  outside : Outside k₀.free k₀ k

/-- The directory is made of free pages. -/
structure Made (k₀ k : Kmem) (d : Pgdir) : Prop where
  backed : Backed d
  pages : k.free + d.pages = k₀.free
  outside : Outside k₀.free k₀ k

theorem Undone.refl (k : Kmem) : Undone k k := ⟨rfl,.refl _ k⟩

section
variable (h : Made k₀ k d)
include h

theorem Made.owned (hk0 : Distinct L k₀.free) : Owned L k d :=
  ⟨h.pages ▸ hk0,h.backed⟩

theorem Made.pages_sub (hpa : pa ∈ d.pages) : pa ∈ k₀.free :=
  h.pages ▸ Multiset.mem_add.2 (.inr hpa)

theorem Made.free_sub (hpa : pa ∈ k.free) : pa ∈ k₀.free :=
  h.pages ▸ Multiset.mem_add.2 (.inl hpa)

theorem Made.freevm (hk0 : Distinct L k₀.free) :
    ∃ k', freevm L k d = .ok k' ∧ Undone k₀ k' := by
  obtain ⟨k',hfree,hpages,hout⟩ := (h.owned hk0).freevm
  exact ⟨k',hfree,hpages.trans h.pages,h.outside.trans (hout.mono fun _ hpa => h.pages_sub hpa)⟩

end

/-- A directory that is made, or no page is taken. -/
structure MadeOr (k₀ : Kmem) (Q : Kmem → Pgdir → Prop) (r : Kmem × Option Pgdir) : Prop where
  made : ∀ d ∈ r.2, Made k₀ r.1 d ∧ Q r.1 d
  undone : r.2 = none → Undone k₀ r.1

theorem madeOr_none (h : Undone k₀ k) (Q : Kmem → Pgdir → Prop) : MadeOr k₀ Q (k,none) :=
  ⟨nofun,fun _ => h⟩

theorem madeOr_some {Q : Kmem → Pgdir → Prop} (h : Made k₀ k d) (hQ : Q k d) :
    MadeOr k₀ Q (k,some d) :=
  ⟨fun _ hd => Option.some.inj hd ▸ ⟨h,hQ⟩,nofun⟩

theorem Made.freevm_or {E : Trap → Prop} {Q : Kmem → Pgdir → Prop} (h : Made k₀ k d)
    (hk0 : Distinct L k₀.free) :
    Sat E (MadeOr k₀ Q) (do return (← Vm.freevm L k d,none)) := by
  obtain ⟨k',hfree,hundone⟩ := h.freevm hk0
  rw [hfree]
  exact sat_ok.2 (madeOr_none hundone Q)

theorem Made.tabled (h : Made k₀ k d) (ht : Tabled k d k' d')
    (hpte : ∀ j, j < NUSER → d'.pte j = d.pte j) : Made k₀ k' d' where
  backed := ht.backed
  pages := by
    have husers : d'.users = d.users := users_congr fun j hj => by rw [hpte j hj]
    rw [← h.pages,Pgdir.pages,Pgdir.pages,ht.addr,husers]
    calc k'.free + ({d.addr} + d'.tables + d.users)
        = k'.free + d'.tables + ({d.addr} + d.users) := by abel
      _ = k.free + d.tables + ({d.addr} + d.users) := by rw [ht.tables]
      _ = k.free + ({d.addr} + d.tables + d.users) := by abel
  outside := h.outside.trans (ht.outside.mono fun _ hpa => h.free_sub hpa)

/-- A line of `kmap` does not touch the user part. -/
theorem mappages_kernel {m : Kmap} (hm : m.Whole) (hk0 : Distinct L k₀.free) (h : Made k₀ k d) :
    Sat (· = .remap) (fun r => Made k₀ r.1 r.2.1)
      (mappages k d m.virt m.size m.physStart m.w false) := by
  obtain ⟨hle,hlt⟩ := hm.last_lt
  have hkern : NUSER ≤ m.virt / PGSIZE := by
    have h1 := hm.kernel
    rw [NUSER_eq]
    unfold KERNBASE PGSIZE at *
    omega
  have haligned : ∀ pa ∈ k.free, pa % PGSIZE = 0 :=
    fun pa hpa => (hk0.page pa (h.free_sub hpa)).aligned
  rw [hm.mappages_eq]
  refine ((mapLoop_tabled h.backed haligned ?_).and
    (mapLoop_spec k _ h.backed hle hlt (Nat.lt_of_le_of_lt (Nat.sub_le _ _) hlt)
      fun _ _ _ _ => rfl)).mono fun r hr => ?_
  · unfold PGSIZE at *
    omega
  · exact h.tabled hr.1 fun j hj => hr.2.pte j (by omega)

theorem kmapLoop_made {ms : List Kmap} (hk0 : Distinct L k₀.free) (hwhole : ∀ m ∈ ms, m.Whole)
    (h : Made k₀ k d) : Sat (· = .remap) (MadeOr k₀ fun _ _ => True) (kmapLoop L ms k d) := by
  induction ms generalizing k d with
  | nil => exact sat_ok.2 (madeOr_some h trivial)
  | cons m ms ih =>
    refine (mappages_kernel (hwhole m (mem_cons_self ..)) hk0 h).bind fun r hr => ?_
    split
    next => exact ih (fun m hm => hwhole m (mem_cons_of_mem _ hm)) hr
    next => exact hr.freevm_or hk0

theorem Shows.user (h : Shows (kmap L) d) (hj : j < NUSER) (hL : L.DataOk) : d.pte j = none := by
  rw [NUSER_eq] at hj
  by_contra hne
  obtain ⟨e,he⟩ := Option.ne_none_iff_exists'.1 hne
  obtain ⟨m,hm,hc,-⟩ := (h j (by omega) e).1 he
  have hkern := (kmap_whole hL m hm).kernel.trans hc.1
  unfold KERNBASE PGSIZE at hkern
  omega

/-- `setupkvm` makes a directory without user pages, or takes no page. -/
theorem setupkvm_made {E : Trap → Prop} (hL : L.DataOk) (hk : Distinct L k.free) :
    Sat E (MadeOr k fun _ d => Shows (kmap L) d) (setupkvm L k) := by
  have hmade : Sat (· = .remap) (MadeOr k fun _ _ => True) (setupkvm L k) := by
    unfold setupkvm
    split
    next => exact sat_ok.2 (madeOr_none (.refl k) _)
    next k₁ pgdir hkalloc =>
      have hcons := free_kalloc hkalloc
      have hmem : pgdir ∈ k.free := hcons ▸ Multiset.mem_cons_self _ _
      refine kmapLoop_made hk (kmap_whole hL) ⟨fun n hn => absurd rfl hn,?_,?_⟩
      · rw [hcons,Pgdir.pages,tables_none fun _ => rfl,users_none fun _ _ => rfl,add_zero,
          add_zero,← Multiset.singleton_add,add_comm]
        rfl
      · intro a ha
        rw [Outside.memset (hk.page pgdir hmem).aligned hmem k₁ 0 a ha,(kalloc_some hkalloc).2]
  have hshows := setupkvm_shows hL k
  refine ⟨fun hr => ⟨fun d hd => ⟨((hmade.ok hr).made d hd).1,(hshows.ok hr d hd).2⟩,
    (hmade.ok hr).undone⟩,fun {e} he => ?_⟩
  have h1 : e = .remap := hmade.error he
  have h2 : e = .kfree := hshows.error he
  exact Trap.noConfusion (h1.symm.trans h2)

/-- Pages of the free list are mapped from the page `n` on. -/
structure Extended (n : ℕ) (k : Kmem) (d : Pgdir) (k' : Kmem) (d' : Pgdir) : Prop where
  backed : Backed d'
  addr : d'.addr = d.addr
  keeps : KeepsTables d d'
  pages : k'.free + d'.pages = k.free + d.pages
  sub : ∀ pa ∈ k'.free, pa ∈ k.free
  outside : Outside k.free k k'
  old : ∀ j, j < n ∨ NUSER ≤ j → d'.pte j = d.pte j
  new : ∀ j, n ≤ j → j < NUSER → ∀ e, d'.pte j = some e → e.addr ∈ k.free

/-- The pages from `n` up to `c` are mapped, without anything in them, and those behind are not. -/
structure Zeroed (n c : ℕ) (k : Kmem) (d : Pgdir) : Prop where
  filled : ∀ j, n ≤ j → j < c →
    ∃ pa, d.pte j = some ⟨pa,true,true⟩ ∧ ∀ x, x < PGSIZE → k.mem (pa + x) = 0
  empty : ∀ j, c ≤ j → j < NUSER → d.pte j = none

theorem Extended.refl (hb : Backed d) (k : Kmem) (h : ∀ j, n ≤ j → j < NUSER → d.pte j = none) :
    Extended n k d k d where
  backed := hb
  addr := rfl
  keeps := .refl d
  pages := rfl
  sub _ hpa := hpa
  outside := .refl _ k
  old _ _ := rfl
  new j hj hj' e he := by
    rw [h j hj hj'] at he
    cases he

theorem Extended.added (h : Extended n k d k₁ d₁) (hnc : n ≤ c) (hc : c < NUSER)
    (ha : Added c mem w u k₁ k₂ d₁ k' d' true) : Extended n k d k' d' := by
  obtain ⟨hpte,hpages⟩ := ha.mapped rfl
  refine ⟨ha.backed,ha.addr.trans h.addr,h.keeps.trans ha.keeps,hpages.trans h.pages,
    fun pa hpa => h.sub pa (ha.sub pa hpa),h.outside.trans (ha.outside.mono h.sub),?_,?_⟩
  · intro j hj
    rw [hpte,update_of_ne (by omega)]
    exact h.old j hj
  · intro j hj hj' e he
    rw [hpte] at he
    by_cases heq : j = c
    · rw [heq,update_self] at he
      rw [← Option.some.inj he]
      exact h.sub mem ha.fresh
    · rw [update_of_ne heq] at he
      exact h.new j hj hj' e he

theorem Zeroed.added (h : Zeroed n c k₁ d₁) (ho : Owned L k₁ d₁) (hc : c < NUSER)
    (ha : Added c mem true true k₁ k₂ d₁ k' d' true)
    (hzero : ∀ x, x < PGSIZE → k₂.mem (mem + x) = 0) : Zeroed n (c + 1) k' d' := by
  obtain ⟨hpte,-⟩ := ha.mapped rfl
  refine ⟨fun j hj hjc => ?_,fun j hj hj' => ?_⟩
  · by_cases heq : j = c
    · refine ⟨mem,by rw [heq,hpte,update_self],fun x hx => ?_⟩
      rw [ha.page x hx,hzero x hx]
    · obtain ⟨pa,hpa,hz⟩ := h.filled j hj (by omega)
      refine ⟨pa,by rw [hpte,update_of_ne heq,hpa],fun x hx => ?_⟩
      have hmem := Owned.user_mem (show j < NUSER by omega) hpa
      rw [ha.outside.byte (ho.page hmem).aligned (ho.notMem hmem) hx,hz x hx]
  · rw [hpte,update_of_ne (by omega)]
    exact h.empty j (by omega) hj'

/-- The new pages go back, and with them those in `S`, which were not mapped. -/
theorem Extended.shrunk {S : Multiset ℕ} {k3 : Kmem} {d3 : Pgdir} (h : Extended n k d k₁ d₁)
    (hempty : ∀ j, m ≤ j → j < NUSER → d₁.pte j = none)
    (hpte : d₂.pte = d₁.pte) (haddr : d₂.addr = d₁.addr) (hkeeps : KeepsTables d₁ d₂)
    (hsub : ∀ pa ∈ k₂.free, pa ∈ k₁.free) (hout : Outside k₁.free k₁ k₂)
    (hpages : S + k₂.free + d₂.pages = k₁.free + d₁.pages) (hs : Shrunk n m k₂ d₂ k3 d3)
    (hm : m ≤ NUSER) (hS : ∀ pa ∈ S, pa ∈ k₁.free) (hfree : k'.free = S + k3.free)
    (hout' : Outside S k3 k') : Extended n k d k' d3 ∧ Zeroed n n k' d3 := by
  have hthere : ∀ j, n ≤ j → j < NUSER → d3.pte j = none := by
    intro j hj hj'
    by_cases hjm : j < m
    · exact hs.gone j hj hjm
    · rw [hs.kept j (.inr (by omega)),hpte]
      exact hempty j (by omega) hj'
  refine ⟨⟨hs.backed,hs.addr.trans (haddr.trans h.addr),?_,?_,?_,?_,?_,?_⟩,
    fun j hj hj' => absurd hj (by omega),fun j hj hj' => hthere j hj hj'⟩
  · intro i hi
    rw [hs.table]
    exact hkeeps i (h.keeps i hi)
  · rw [hfree,add_assoc,hs.pages,← add_assoc,hpages,h.pages]
  · intro pa hpa
    rw [hfree,Multiset.mem_add] at hpa
    rcases hpa with hpa | hpa
    · exact h.sub pa (hS pa hpa)
    · rcases hs.freed pa hpa with hpa | ⟨j,e,hj,hjm,he,rfl⟩
      · exact h.sub pa (hsub pa hpa)
      · rw [hpte] at he
        exact h.new j hj (by omega) e he
  · have hdealloc : Outside k.free k₂ k3 := hs.outside _ fun j e hj hjm he =>
      h.new j hj (by omega) e (hpte ▸ he)
    exact ((h.outside.trans (hout.mono h.sub)).trans hdealloc).trans
      (hout'.mono fun pa hpa => h.sub pa (hS pa hpa))
  · intro j hj
    by_cases hjn : j < n
    · rw [hs.kept j (.inl hjn),hpte,h.old j hj]
    · rw [hs.kept j (.inr (by omega)),hpte,h.old j hj]
  · intro j hj hj' e he
    rw [hthere j hj hj'] at he
    cases he

/-- What `allocuvm` leaves: the pages up to `m`, or none. -/
def Allocated (n m newsz : ℕ) (k : Kmem) (d : Pgdir) (r : Kmem × Pgdir × ℕ) : Prop :=
  Extended n k d r.1 r.2.1 ∧
    (r.2.2 = newsz ∧ Zeroed n m r.1 r.2.1 ∨ r.2.2 = 0 ∧ Zeroed n n r.1 r.2.1)

/-- The pages behind `oldsz` and below `newsz`. -/
structure Range (oldsz newsz n m : ℕ) : Prop where
  first : PGROUNDUP oldsz = n * PGSIZE
  above : oldsz ≤ n * PGSIZE
  le : n ≤ m
  top : m ≤ NUSER
  last : ∀ j, n ≤ j → (j * PGSIZE < newsz ↔ j < m)

section
variable (hr : Range oldsz newsz n m)
include hr

theorem Range.deallocuvm (hnew : newsz < KERNBASE) (h : Owned L k d)
    (hlt : n < m) : ∃ k' d', deallocuvm L k d newsz oldsz = .ok (k',d',oldsz) ∧
      Shrunk n m k d k' d' := by
  have h1 := (hr.last n (Nat.le_refl n)).2 hlt
  have h2 := (hr.last (m - 1) (by omega)).2 (by omega)
  have h3 := mt (hr.last m hr.le).1 (Nat.lt_irrefl m)
  refine h.deallocuvm (Nat.lt_of_le_of_lt hr.above h1) hnew.le hr.first (Nat.not_lt.1 h3) ?_
  have hm : m * PGSIZE = (m - 1) * PGSIZE + PGSIZE := by
    rw [← Nat.add_one_mul,Nat.sub_add_cancel (by omega)]
  rw [hm]
  exact Nat.add_lt_add_right h2 _

/-- From the pages up to `c` on, the loop maps the others, or frees them all. -/
theorem allocLoop_allocated {E : Trap → Prop} (hnew : newsz < KERNBASE)
    (ho : Owned L k d) (t : ℕ) (hct : c + t = m) (hnc : n ≤ c) (h : Extended n k d k₁ d₁)
    (hz : Zeroed n c k₁ d₁) :
    Sat E (Allocated n m newsz k d) (allocLoop L oldsz newsz (pages (c * PGSIZE) newsz) k₁ d₁) := by
  induction t generalizing c k₁ d₁ with
  | zero =>
    have hle := mt (hr.last c hnc).1 (show ¬ c < m by omega)
    rw [pages_nil (Nat.not_lt.1 hle)]
    rw [show c = m by omega] at hz
    exact sat_ok.2 ⟨h,.inl ⟨rfl,hz⟩⟩
  | succ t ih =>
    have hc : c < NUSER := Nat.lt_of_lt_of_le (show c < m by omega) hr.top
    have ho1 := ho.of_pages h.backed h.pages
    have hempty : ∀ j, m ≤ j → j < NUSER → d₁.pte j = none :=
      fun j hj hj' => hz.empty j (by omega) hj'
    rw [pages_cons ((hr.last c hnc).2 (by omega)),allocLoop]
    split
    next hfull =>
      obtain ⟨k',d',hde,hs⟩ := hr.deallocuvm hnew ho1 (by omega)
      rw [hde]
      obtain ⟨hext,hzero⟩ := h.shrunk (S := 0) hempty rfl rfl (.refl _)
        (fun _ hpa => hpa) (.refl _ k₁) (by rw [zero_add]) hs hr.top (by simp) (zero_add _).symm (.refl _ k')
      exact sat_ok.2 ⟨hext,.inr ⟨rfl,hzero⟩⟩
    next k₂ mem hkalloc =>
      have hmem : mem ∈ k₁.free := free_kalloc hkalloc ▸ Multiset.mem_cons_self _ _
      have hpage := ho1.distinct.page mem (Multiset.mem_add.2 (.inl hmem))
      obtain ⟨k',d',b,hmap,ha⟩ := ho1.mappages hc (hz.empty c (Nat.le_refl c) hc) hkalloc
        (Eq.refl (k₂.memset mem 0).free)
        (Outside.memset hpage.aligned (Multiset.mem_singleton_self mem) k₂ 0) true true
      rw [hmap]
      dsimp only [bind,Except.bind]
      cases b with
      | true =>
        rw [if_pos rfl]
        have hnext := ih (by omega) (by omega) (h.added hnc hc ha)
          (hz.added ho1 hc ha fun x hx => memset_byte k₂ 0 hx)
        rwa [Nat.add_one_mul] at hnext
      | false =>
        obtain ⟨hpte,hpages⟩ := ha.failed rfl
        have hle : k'.free + d'.pages ≤ k₁.free + d₁.pages := by
          rw [← hpages,add_assoc]
          exact Multiset.le_add_left _ _
        obtain ⟨k3,d3,hde,hs⟩ := hr.deallocuvm hnew (ho1.of_le ha.backed hle) (by omega)
        rw [if_neg Bool.false_ne_true,hde]
        dsimp only
        rw [hpage.kfree]
        have hout : Outside {mem} k3 { k3.memset mem 1 with freelist := mem :: k3.freelist } :=
          Outside.memset hpage.aligned (Multiset.mem_singleton_self mem) k3 1
        obtain ⟨hext,hzero⟩ := h.shrunk hempty hpte ha.addr ha.keeps ha.sub ha.outside hpages hs
          hr.top (fun pa hpa => Multiset.mem_singleton.1 hpa ▸ hmem) rfl hout
        exact sat_ok.2 ⟨hext,.inr ⟨rfl,hzero⟩⟩

theorem allocuvm_allocated {E : Trap → Prop} (hnew : newsz < KERNBASE)
    (hle : oldsz ≤ newsz) (ho : Owned L k d) (hnone : ∀ j, n ≤ j → j < NUSER → d.pte j = none) :
    Sat E (Allocated n m newsz k d) (allocuvm L k d oldsz newsz) := by
  rw [allocuvm,if_neg (Nat.not_le.2 hnew),if_neg (Nat.not_lt.2 hle),hr.first]
  refine allocLoop_allocated hr hnew ho (m - n) (Nat.add_sub_cancel' hr.le) (Nat.le_refl n)
    (.refl ho.backed k hnone) ⟨fun j hj hj' => absurd hj (by omega),hnone⟩

end

theorem range_of_le (hle : oldsz ≤ newsz) (hnew : newsz < KERNBASE) :
    ∃ n m, Range oldsz newsz n m ∧ n * PGSIZE < oldsz + PGSIZE ∧
      PGROUNDUP newsz = m * PGSIZE ∧ newsz ≤ m * PGSIZE ∧ m * PGSIZE < newsz + PGSIZE := by
  obtain ⟨n,hn,hn1,hn2⟩ := PGROUNDUP_page (hle.trans hnew.le)
  obtain ⟨m,hm,hm1,hm2⟩ := PGROUNDUP_page hnew.le
  have hle' : n ≤ m := by
    unfold PGSIZE at *
    omega
  have htop : m ≤ NUSER := by
    rw [NUSER_eq]
    unfold KERNBASE PGSIZE at *
    omega
  refine ⟨n,m,⟨hn,hn1,hle',htop,fun j _ => ?_⟩,hn2,hm,hm1,hm2⟩
  unfold PGSIZE at *
  omega

theorem mem_freePages : pa ∈ freePages.free ↔ ∃ i, i < 0x104 ∧ 0x400000 + i * PGSIZE = pa := by
  simp only [freePages,Kmem.free,Multiset.mem_coe,mem_map,mem_range]

theorem freePages_distinct : Distinct ⟨0x80108000,0x80118000⟩ freePages.free where
  page pa hpa := by
    obtain ⟨i,hi,rfl⟩ := mem_freePages.1 hpa
    refine ⟨?_,?_,?_,by omega⟩
    · unfold PGSIZE
      omega
    · dsimp only
      unfold PGSIZE KERNBASE
      omega
    · unfold PGSIZE PHYSTOP
      omega
  nodup := by
    refine nodup_range.map fun i j hij => ?_
    exact Nat.eq_of_mul_eq_mul_right (m := PGSIZE) (by decide) (Nat.add_left_cancel hij)

end Xv6.Vm
