import Xv6.Vm.Dealloc

/-! # Directories and their pages

A directory has its pages for itself: `freevm` gives them all back, and what is allocated for one
directory comes out of the free list. -/
namespace Xv6.Vm
open Function (update)
open Result Pgdir List

structure Distinct (L : Layout) (S : Multiset ℕ) : Prop where
  page : ∀ pa ∈ S, Page L pa
  nodup : S.Nodup

/-- The directory has its pages for itself. -/
structure Owned (L : Layout) (k : Kmem) (d : Pgdir) : Prop where
  distinct : Distinct L (k.free + d.pages)
  backed : Backed d

variable {L : Layout} {k k' k'' k₁ k₂ : Kmem} {d d' d'' : Pgdir} {w u : Bool}
  {n m i j pa va fuel oldsz newsz : ℕ}

theorem Distinct.mono {S T : Multiset ℕ} (h : Distinct L T) (hle : S ≤ T) : Distinct L S :=
  ⟨fun pa hpa => h.page pa (Multiset.mem_of_le hle hpa),Multiset.nodup_of_le hle h.nodup⟩

namespace Owned

theorem of_pages (h : Owned L k d) (hb : Backed d') (hp : k'.free + d'.pages = k.free + d.pages) :
    Owned L k' d' :=
  ⟨hp ▸ h.distinct,hb⟩

theorem of_le (h : Owned L k d) (hb : Backed d') (hp : k'.free + d'.pages ≤ k.free + d.pages) :
    Owned L k' d' :=
  ⟨h.distinct.mono hp,hb⟩

theorem page (h : Owned L k d) (hpa : pa ∈ d.pages) : Page L pa :=
  h.distinct.page pa (Multiset.mem_add.2 (.inr hpa))

theorem user_mem {e : Pte} (hn : n < NUSER) (he : d.pte n = some e) : e.addr ∈ d.pages :=
  Pgdir.mem_pages.2 (.inr (.inr (mem_users_of hn he)))

theorem notMem (h : Owned L k d) (hpa : pa ∈ d.pages) : pa ∉ k.free := fun hc =>
  Multiset.disjoint_left.1 (Multiset.nodup_add.1 h.distinct.nodup).2.2 hc hpa

theorem user_inj (h : Owned L k d) {e e' : Pte} (hn : n < NUSER) (hm : m < NUSER)
    (he : d.pte n = some e) (he' : d.pte m = some e') (heq : e.addr = e'.addr) : n = m := by
  have hnodup : d.users.Nodup :=
    (Multiset.nodup_add.1 (Multiset.nodup_add.1 h.distinct.nodup).2.1).2.1
  unfold users at hnodup
  refine Stock.slot_unique hnodup (a := e.addr) (Finset.mem_range.2 hn) (Finset.mem_range.2 hm) ?_ ?_
  · rw [he]
    rfl
  · rw [he',heq]
    rfl

theorem handedOut (h : Owned L k d) : HandedOut L k d where
  page n hn e he := by
    rw [present_page h.backed] at he
    exact ⟨h.page (user_mem hn he),h.notMem (user_mem hn he)⟩
  once n m hn hm e e' he he' heq := by
    rw [present_page h.backed] at he he'
    exact h.user_inj hn hm he he' heq

end Owned

/-- What `deallocuvm` does to the entries of a range. -/
structure Shrunk (n m : ℕ) (k : Kmem) (d : Pgdir) (k' : Kmem) (d' : Pgdir) : Prop where
  backed : Backed d'
  addr : d'.addr = d.addr
  table : d'.table = d.table
  pages : k'.free + d'.pages = k.free + d.pages
  gone : ∀ j, n ≤ j → j < m → d'.pte j = none
  kept : ∀ j, j < n ∨ m ≤ j → d'.pte j = d.pte j
  freed : ∀ pa ∈ k'.free, pa ∈ k.free ∨ ∃ j e, n ≤ j ∧ j < m ∧ d.pte j = some e ∧ e.addr = pa
  outside : ∀ S : Multiset ℕ, (∀ j e, n ≤ j → j < m → d.pte j = some e → e.addr ∈ S) → Outside S k k'

theorem Owned.deallocuvm (h : Owned L k d) (hlt : newsz < oldsz) (hold : oldsz ≤ KERNBASE)
    (hn : PGROUNDUP newsz = n * PGSIZE) (hm : oldsz ≤ m * PGSIZE) (hm' : m * PGSIZE < oldsz + PGSIZE) :
    ∃ k' d', deallocuvm L k d oldsz newsz = .ok (k',d',newsz) ∧ Shrunk n m k d k' d' := by
  have hpage : ∀ a ∈ pages (n * PGSIZE) oldsz, ∃ j, j < NUSER ∧ a = j * PGSIZE :=
    fun a ha => Vm.user_page hold ha
  have hrange : ∀ j, j * PGSIZE ∈ pages (n * PGSIZE) oldsz ↔ n ≤ j ∧ j < m := by
    intro j
    rw [mem_pages]
    constructor
    · rintro ⟨i,hi,hlt,heq⟩
      rw [← heq] at hlt
      exact ⟨Nat.eq_of_mul_eq_mul_right (by decide) heq ▸ hi,
        Nat.lt_of_mul_lt_mul_right (Nat.lt_of_lt_of_le hlt hm)⟩
    · rintro ⟨h1,h2⟩
      have hle : (j + 1) * PGSIZE ≤ m * PGSIZE := Nat.mul_le_mul_right _ h2
      rw [Nat.add_one_mul] at hle
      exact ⟨j,h1,Nat.lt_of_add_lt_add_right (Nat.lt_of_le_of_lt hle hm'),rfl⟩
  obtain ⟨k',d',hloop,hf⟩ := plainLoop_freed (L := L) (d := d) (pages_nodup (n * PGSIZE) oldsz)
    (fun a ha => (hpage a ha).imp fun j hj => hj.2)
    (fun a ha e he => by
      obtain ⟨j,hj,rfl⟩ := hpage a ha
      exact (h.handedOut.page j hj e he).1) k
  obtain ⟨hb',husers⟩ := plainLoop_users h.backed hpage hloop
  have hat : ∀ pa ∈ d.at (pages (n * PGSIZE) oldsz),
      ∃ j e, n ≤ j ∧ j < m ∧ d.pte j = some e ∧ e.addr = pa := by
    intro pa hpa
    obtain ⟨b,hb,hbe⟩ := mem_filterMap.1 hpa
    obtain ⟨j,-,rfl⟩ := hpage b hb
    obtain ⟨e,he,haddr⟩ := Option.map_eq_some_iff.1 hbe
    rw [present_page h.backed] at he
    exact ⟨j,e,((hrange j).1 hb).1,((hrange j).1 hb).2,he,haddr⟩
  refine ⟨k',d',?_,hb',hf.addr,hf.table,?_,fun j hj hjm => ?_,fun j hj => ?_,?_,?_⟩
  · rw [deallocuvm_plain k d hlt hold,deallocPlain,hn,hloop]
    rfl
  · rw [Pgdir.pages,Pgdir.pages,hf.addr,tables_congr hf.table]
    calc k'.free + ({d.addr} + d.tables + d'.users)
        = k'.free + d'.users + ({d.addr} + d.tables) := by abel
      _ = k.free + d.users + ({d.addr} + d.tables) := by rw [husers]
      _ = k.free + ({d.addr} + d.tables + d.users) := by abel
  · rw [hf.pte j]
    by_cases hw : d.walk (j * PGSIZE) = true
    · rw [if_pos ⟨(hrange j).2 ⟨hj,hjm⟩,hw⟩]
    · rw [if_neg fun hc => hw hc.2,← present_page h.backed,present,if_neg hw]
  · rw [hf.pte j,if_neg]
    rintro ⟨hmem,-⟩
    have hin := (hrange j).1 hmem
    omega
  · intro pa hpa
    rw [Kmem.free,hf.freelist,Multiset.mem_coe,mem_append,mem_reverse] at hpa
    exact hpa.symm.imp id (hat pa)
  · intro S hS a ha
    refine hf.outside a fun hmem => ha ?_
    obtain ⟨j,e,hj,hjm,he,haddr⟩ := hat _ hmem
    exact haddr ▸ hS j e hj hjm he

/-- The pages of the tables go to the free list. -/
theorem freeTables_spec {is : List ℕ} (d : Pgdir) (hnodup : is.Nodup)
    (hpage : ∀ i ∈ is, ∀ pa, d.table i = some pa → Page L pa) (k : Kmem) :
    ∃ k', freeTables L d is k = .ok k' ∧ k'.free = k.free + Stock.held is.toFinset d.table ∧
      ∀ S : Multiset ℕ, (∀ i ∈ is, ∀ pa, d.table i = some pa → pa ∈ S) → Outside S k k' := by
  induction is generalizing k with
  | nil => exact ⟨k,rfl,by simp [Stock.held],fun S _ => .refl S k⟩
  | cons i is ih =>
    obtain ⟨hni,hnodup'⟩ := nodup_cons.1 hnodup
    have hpage' : ∀ i ∈ is, ∀ pa, d.table i = some pa → Page L pa :=
      fun i hi => hpage i (mem_cons_of_mem _ hi)
    have hheld := Stock.held_insert (f := d.table) (fun hc => hni (mem_toFinset.1 hc))
    rw [toFinset_cons,hheld]
    unfold freeTables
    split
    next hnone =>
      obtain ⟨k',hloop,hfree,hout⟩ := ih hnodup' hpage' k
      rw [hnone]
      exact ⟨k',hloop,by simpa using hfree,
        fun S hS => hout S fun i hi => hS i (mem_cons_of_mem _ hi)⟩
    next pgtab hsome =>
      have hp := hpage i (mem_cons_self ..) pgtab hsome
      obtain ⟨k',hloop,hfree,hout⟩ := ih hnodup' hpage'
        { k.memset pgtab 1 with freelist := pgtab :: k.freelist }
      refine ⟨k',?_,?_,fun S hS => ?_⟩
      · rw [hp.kfree]
        exact hloop
      · rw [hfree,hsome,Option.toList_some,Multiset.coe_singleton]
        change pgtab ::ₘ k.free + _ = _
        rw [← Multiset.singleton_add]
        abel
      · have hset := Outside.memset hp.aligned (hS i (mem_cons_self ..) pgtab hsome) k 1
        have hrest := hout S fun i hi => hS i (mem_cons_of_mem _ hi)
        exact fun a ha => (hrest a ha).trans (hset a ha)

theorem mem_tables : pa ∈ d.tables ↔ ∃ i, i < NPDENTRIES ∧ d.table i = some pa := by
  unfold tables
  simp only [Stock.mem_held,Finset.mem_range]

theorem Owned.freevm (h : Owned L k d) :
    ∃ k', freevm L k d = .ok k' ∧ k'.free = k.free + d.pages ∧ Outside d.pages k k' := by
  have hNUSER : KERNBASE = NUSER * PGSIZE := by rw [NUSER_eq]; decide
  have hpos : 0 < KERNBASE := by decide
  obtain ⟨k₁,d1,hde,hs⟩ := h.deallocuvm (n := 0) (m := NUSER) hpos (Nat.le_refl _) (by decide)
    hNUSER.le (by rw [← hNUSER]; decide)
  have husers : d1.users = 0 := users_none fun n hn => hs.gone n (Nat.zero_le n) hn
  have h1 := h.of_pages hs.backed hs.pages
  have htab : ∀ i ∈ List.range NPDENTRIES, ∀ pa, d1.table i = some pa → pa ∈ d.pages := by
    intro i hi pa hpa
    rw [hs.table] at hpa
    exact Pgdir.mem_pages.2 (.inr (.inl (mem_tables.2 ⟨i,mem_range.1 hi,hpa⟩)))
  obtain ⟨k₂,htables,hfree,hout⟩ := freeTables_spec (L := L) d1 nodup_range
    (fun i hi pa hpa => h.page (htab i hi pa hpa)) k₁
  have haddr : Page L d.addr := h.page (Pgdir.mem_pages.2 (.inl rfl))
  refine ⟨{ k₂.memset d.addr 1 with freelist := d.addr :: k₂.freelist },?_,?_,?_⟩
  · rw [Vm.freevm,hde]
    dsimp only [bind,Except.bind]
    rw [htables]
    exact haddr.kfree k₂
  · have hheld : Stock.held (List.range NPDENTRIES).toFinset d1.table = d.tables := by
      have hrange : (List.range NPDENTRIES).toFinset = Finset.range NPDENTRIES := by
        ext i
        simp only [mem_toFinset,mem_range,Finset.mem_range]
      unfold tables
      rw [hrange,hs.table]
    have hk1 : k₁.free = k.free + d.users := by
      have hsum := hs.pages
      rw [Pgdir.pages,Pgdir.pages,hs.addr,tables_congr hs.table,husers,add_zero] at hsum
      refine add_right_cancel (b := {d.addr} + d.tables) (hsum.trans ?_)
      abel
    change d.addr ::ₘ k₂.free = _
    rw [hfree,hheld,hk1,Pgdir.pages,← Multiset.singleton_add]
    abel
  · have hout1 : Outside d.pages k k₁ := hs.outside _ fun j e _ hj he =>
      Owned.user_mem hj he
    have hout2 : Outside d.pages k₁ k₂ := hout _ htab
    have hout3 := Outside.memset haddr.aligned (Pgdir.mem_pages.2 (.inl rfl)) k₂ 1
    exact fun a ha => (hout3 a ha).trans ((hout1.trans hout2) a ha)

def Pgdir.byte (d : Pgdir) (k : Kmem) (va : ℕ) : Option UInt8 :=
  (d.present va).map fun e => k.mem (e.addr + va % PGSIZE)

theorem present_eq (hb : Backed d) (va : ℕ) : d.present va = d.pte (va / PGSIZE) := by
  rw [← present_page hb,present,present,walk,walk,PDX_page,PDX,
    entry_page,entry]

theorem page_lt_NUSER (h : va < KERNBASE) : va / PGSIZE < NUSER := by
  rw [NUSER_eq]
  unfold KERNBASE PGSIZE at *
  omega

theorem lt_page : va / PGSIZE < n ↔ va < n * PGSIZE := by
  unfold PGSIZE
  omega

theorem byte_of_pte (hb : Backed d) {e : Pte} (he : d.pte (va / PGSIZE) = some e) :
    d.byte k va = some (k.mem (e.addr + va % PGSIZE)) := by
  rw [byte,present_eq hb,he]
  rfl

theorem byte_congr (hpte : d'.present va = d.present va) (hpage : ∀ e, d.present va = some e →
    ∀ x, x < PGSIZE → k'.mem (e.addr + x) = k.mem (e.addr + x)) : d'.byte k' va = d.byte k va := by
  rw [byte,byte,hpte]
  cases he : d.present va with
  | none => rfl
  | some e => exact congrArg some (hpage e he _ (Nat.mod_lt va (by decide)))

/-- A byte of the directory where only free pages are written. -/
theorem Owned.byte_free (h : Owned L k d) (hva : va < KERNBASE)
    (hpte : d'.present va = d.present va) (hout : Outside k.free k k') :
    d'.byte k' va = d.byte k va := by
  refine byte_congr hpte fun e he x hx => ?_
  rw [present_eq h.backed] at he
  have hmem := Owned.user_mem (page_lt_NUSER hva) he
  exact hout.byte (h.page hmem).aligned (h.notMem hmem) hx

/-- The pages that stay are not written. -/
theorem Shrunk.byte (hs : Shrunk n m k d k' d') (h : Owned L k d) {e : Pte} (hm : m ≤ NUSER)
    (hj : j < n ∨ m ≤ j) (hj' : j < NUSER) (he : d.pte j = some e) {x : ℕ} (hx : x < PGSIZE) :
    k'.mem (e.addr + x) = k.mem (e.addr + x) := by
  have hout := hs.outside (d.users.filter (· ≠ e.addr)) fun i e' hi hi' he' => by
    refine Multiset.mem_filter.2 ⟨mem_users_of (by omega) he',fun heq => ?_⟩
    have hij := h.user_inj (by omega) hj' he' he heq
    omega
  exact hout.byte (h.page (Owned.user_mem hj' he)).aligned (by simp) hx

end Xv6.Vm
