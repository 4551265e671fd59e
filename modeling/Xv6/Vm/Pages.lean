import Xv6.Lib.Stock
import Xv6.Vm.Mapped

/-! # Who has the physical pages

A page of the allocator is free, or it is a page directory, a page table of a directory or a user page.
No operation loses a page or makes one up, and bytes change only in pages that are free or belong to
the directory that is worked on. -/
namespace Xv6.Vm
open Function Result Option Finset

@[irreducible] def NUSER : ℕ := KERNBASE / PGSIZE

/-- A page that `kalloc` hands out: `kfree` takes it back. -/
structure Page (L : Layout) (pa : ℕ) : Prop where
  aligned : pa % PGSIZE = 0
  behind : L.kend ≤ (pa + KERNBASE) % 2 ^ 32
  below : pa < PHYSTOP
  pos : 0 < pa

def Kmem.free (k : Kmem) : Multiset ℕ := k.freelist

@[irreducible] def Pgdir.tables (d : Pgdir) : Multiset ℕ := Stock.held (Finset.range NPDENTRIES) d.table

@[irreducible] def Pgdir.users (d : Pgdir) : Multiset ℕ :=
  Stock.held (Finset.range NUSER) fun n => (d.pte n).map Pte.addr

def Pgdir.pages (d : Pgdir) : Multiset ℕ := {d.addr} + d.tables + d.users

/-- Bytes change in the pages `S` only. -/
def Outside (S : Multiset ℕ) (k k' : Kmem) : Prop := ∀ a, PGROUNDDOWN a ∉ S → k'.mem a = k.mem a

variable {L : Layout} {k k' k'' : Kmem} {d d' d'' : Pgdir} {w u : Bool} {n m i j pa va fuel : ℕ}
  {S T : Multiset ℕ}

theorem rounddown_add {x : ℕ} (h : pa % PGSIZE = 0) (hx : x < PGSIZE) :
    PGROUNDDOWN (pa + x) = pa := by
  unfold PGROUNDDOWN PGSIZE at *
  omega

theorem rounddown_eq (h : pa % PGSIZE = 0) {a : ℕ} (hle : pa ≤ a) (hlt : a < pa + PGSIZE) :
    PGROUNDDOWN a = pa := by
  unfold PGROUNDDOWN PGSIZE at *
  omega

namespace Outside

theorem refl (S : Multiset ℕ) (k : Kmem) : Outside S k k := fun _ _ => rfl

theorem trans (h : Outside S k k') (h' : Outside S k' k'') : Outside S k k'' :=
  fun a ha => (h' a ha).trans (h a ha)

theorem mono (h : Outside S k k') (hST : ∀ a ∈ S, a ∈ T) : Outside T k k' :=
  fun a ha => h a fun hc => ha (hST _ hc)

theorem memset (h : pa % PGSIZE = 0) (hmem : pa ∈ S) (k : Kmem) (c : UInt8) :
    Outside S k (k.memset pa c) := by
  intro a ha
  refine if_neg fun hin => ha ?_
  rw [rounddown_eq h hin.1 hin.2]
  exact hmem

theorem memmove (off : ℕ) {buf : List UInt8} (h : pa % PGSIZE = 0) (hmem : pa ∈ S) (k : Kmem)
    (hlen : off + buf.length ≤ PGSIZE) : Outside S k (k.memmove (pa + off) buf) := by
  intro a ha
  refine if_neg fun hin => ha ?_
  rw [rounddown_eq h (by omega) (by omega)]
  exact hmem

end Outside

theorem Outside.byte (h : Outside S k k') (hpa : pa % PGSIZE = 0) (hmem : pa ∉ S) {x : ℕ}
    (hx : x < PGSIZE) : k'.mem (pa + x) = k.mem (pa + x) := by
  apply h
  rwa [rounddown_add hpa hx]

theorem memset_byte (k : Kmem) (c : UInt8) {x : ℕ} (hx : x < PGSIZE) :
    (k.memset pa c).mem (pa + x) = c := if_pos ⟨by omega,by omega⟩

theorem kalloc_some {r : ℕ} (h : kalloc k = some (k',r)) :
    k.freelist = r :: k'.freelist ∧ k'.mem = k.mem := by
  unfold kalloc at h
  split at h
  next => cases h
  next hfree =>
    cases h
    exact ⟨hfree,rfl⟩

theorem free_kalloc {r : ℕ} (h : kalloc k = some (k',r)) : k.free = r ::ₘ k'.free := by
  rw [Kmem.free,(kalloc_some h).1]
  rfl

theorem kfree_ok (h : kfree L k pa = .ok k') : pa % PGSIZE = 0 ∧ k'.free = pa ::ₘ k.free ∧
    k'.mem = (k.memset pa 1).mem ∧ k'.freelist = pa :: k.freelist := by
  unfold kfree at h
  split at h
  next => cases h
  next hok =>
    cases h
    exact ⟨by omega,rfl,rfl,rfl⟩

theorem Page.kfree (h : Page L pa) (k : Kmem) :
    kfree L k pa = .ok { k.memset pa 1 with freelist := pa :: k.freelist } := by
  unfold Vm.kfree
  have h1 := h.aligned
  have h2 := h.behind
  have h3 := h.below
  rw [if_neg (by omega)]

theorem NUSER_eq : NUSER = 0x80000 := by
  unfold NUSER
  decide

theorem tables_congr (h : d'.table = d.table) : d'.tables = d.tables := by
  unfold Pgdir.tables
  rw [h]

/-- Entries of the kernel part are not user pages. -/
theorem users_congr (h : ∀ n, n < NUSER → (d'.pte n).map Pte.addr = (d.pte n).map Pte.addr) :
    d'.users = d.users := by
  unfold Pgdir.users
  exact Stock.held_congr fun n hn => h n (mem_range.1 hn)

theorem users_none (h : ∀ n, n < NUSER → d.pte n = none) : d.users = 0 := by
  unfold Pgdir.users
  refine Stock.held_none fun n hn => ?_
  rw [h n (mem_range.1 hn)]
  rfl

theorem tables_none (h : ∀ i, d.table i = none) : d.tables = 0 := by
  unfold Pgdir.tables
  exact Stock.held_none fun i _ => h i

theorem users_update {e : Option Pte} (hn : n < NUSER) (h : d'.pte = update d.pte n e) :
    d'.users + ((d.pte n).map Pte.addr).toList = d.users + (e.map Pte.addr).toList := by
  have hpte : (fun j => (d'.pte j).map Pte.addr) =
      update (fun j => (d.pte j).map Pte.addr) n (e.map Pte.addr) := by
    funext j
    rw [h]
    by_cases hj : j = n
    · rw [hj,update_self,update_self]
    · rw [update_of_ne hj,update_of_ne hj]
  unfold Pgdir.users
  rw [hpte]
  exact Stock.held_update (mem_range.2 hn) _

theorem users_setEntry (d : Pgdir) (hn : n < NUSER) (e : Option Pte) :
    (d.setEntry (n * PGSIZE) e).users + ((d.pte n).map Pte.addr).toList =
      d.users + (e.map Pte.addr).toList :=
  users_update hn (by rw [setEntry_page])

theorem mem_users : pa ∈ d.users ↔ ∃ n, n < NUSER ∧ ∃ e, d.pte n = some e ∧ e.addr = pa := by
  simp [Pgdir.users]

theorem mem_users_of {e : Pte} (hn : n < NUSER) (he : d.pte n = some e) : e.addr ∈ d.users :=
  mem_users.2 ⟨n,hn,e,he,rfl⟩

theorem Pgdir.mem_pages : pa ∈ d.pages ↔ pa = d.addr ∨ pa ∈ d.tables ∨ pa ∈ d.users := by
  simp [Pgdir.pages]

theorem tables_update {pgtab : ℕ} (hi : i < NPDENTRIES) (hnone : d.table i = none)
    (h : d'.table = update d.table i (some pgtab)) : d'.tables = d.tables + {pgtab} := by
  have hheld := Stock.held_update (f := d.table) (mem_range.2 hi) (some pgtab)
  rw [hnone,toList_none,Multiset.coe_nil,add_zero,toList_some,
    Multiset.coe_singleton] at hheld
  unfold Pgdir.tables
  rw [h,hheld]

/-- Pages only move between the free list and the tables. -/
structure Tabled (k : Kmem) (d : Pgdir) (k' : Kmem) (d' : Pgdir) : Prop where
  backed : Backed d'
  addr : d'.addr = d.addr
  keeps : KeepsTables d d'
  tables : k'.free + d'.tables = k.free + d.tables
  sub : ∀ pa ∈ k'.free, pa ∈ k.free
  outside : Outside k.free k k'

theorem Tabled.refl (hb : Backed d) (k : Kmem) : Tabled k d k d :=
  ⟨hb,rfl,.refl d,rfl,fun _ h => h,.refl _ k⟩

theorem Tabled.trans (h : Tabled k d k' d') (h' : Tabled k' d' k'' d'') : Tabled k d k'' d'' where
  backed := h'.backed
  addr := h'.addr.trans h.addr
  keeps := h.keeps.trans h'.keeps
  tables := h'.tables.trans h.tables
  sub pa hpa := h.sub pa (h'.sub pa hpa)
  outside := h.outside.trans (h'.outside.mono h.sub)

theorem Tabled.setEntry (h : Tabled k d k' d') (hw : d'.walk va = true) (e : Option Pte) :
    Tabled k d k' (d'.setEntry va e) where
  backed := h.backed.setEntry hw e
  addr := h.addr
  keeps := h.keeps
  tables := by
    rw [← h.tables]
    congr 1
    exact tables_congr rfl
  sub := h.sub
  outside := h.outside

theorem walkAlloc_tabled (hb : Backed d) (hpage : ∀ pa ∈ k.free, pa % PGSIZE = 0)
    (hva : va < 2 ^ 32) (h : walkAlloc k d va = some (k',d')) : Tabled k d k' d' := by
  have hs := walkAlloc_spec hb h
  unfold walkAlloc at h
  split at h
  next =>
    cases h
    exact .refl hb k
  next hw =>
    obtain ⟨⟨k1,pgtab⟩,hk,heq⟩ := map_eq_some_iff.1 h
    have hfree := free_kalloc hk
    have hmem := (kalloc_some hk).2
    have htab : pgtab ∈ k.free := hfree ▸ Multiset.mem_cons_self _ _
    have hnone : d.table (PDX va) = none := by simpa [Pgdir.walk] using hw
    have hi : PDX va < NPDENTRIES := by
      unfold PDX PGSIZE NPTENTRIES NPDENTRIES
      omega
    cases heq
    refine ⟨hs.backed,rfl,hs.keeps,?_,?_,?_⟩
    · rw [tables_update hi hnone rfl,hfree,← Multiset.singleton_add]
      change k1.free + _ = _
      abel
    · intro pa hpa
      rw [hfree]
      exact Multiset.mem_cons_of_mem hpa
    · intro a ha
      rw [Outside.memset (hpage _ htab) htab k1 0 a ha,hmem]

/-- The loop of `mappages` takes pages for tables only. -/
theorem mapLoop_tabled {last a : ℕ} (hb : Backed d) (hpage : ∀ pa ∈ k.free, pa % PGSIZE = 0)
    (ha : a < 2 ^ 32) :
    Sat (· = .remap) (fun r => Tabled k d r.1 r.2.1) (mapLoop last w u fuel k d a pa) := by
  induction fuel generalizing k d a pa with
  | zero => exact sat_ok.2 (.refl hb k)
  | succ fuel ih =>
    unfold mapLoop
    split
    next => exact sat_ok.2 (.refl hb k)
    next k1 d1 hwalk =>
      have hs := walkAlloc_spec hb hwalk
      have ht := (walkAlloc_tabled hb hpage ha hwalk).setEntry hs.walk (some ⟨pa,w,u⟩)
      split
      next => exact sat_error.2 rfl
      next =>
        split
        next => exact sat_ok.2 ht
        next =>
          exact (ih ht.backed (fun pa hpa => hpage pa (ht.sub pa hpa))
            (Nat.mod_lt _ (by decide))).mono fun r hr => ht.trans hr

end Xv6.Vm
