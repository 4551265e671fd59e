import Mathlib.Data.Nat.Basic
import Xv6.Lib.Result
import Xv6.Vm.Exec

/-! # Which pages are mapped

What `mappages` and `allocuvm` do to a page directory: the pages that are mapped, the tables that are
there, and what stays as it was. -/
namespace Xv6.Vm
open Function Result List

def Backed (d : Pgdir) : Prop := ∀ n, d.pte n ≠ none → d.table (n / NPTENTRIES) ≠ none

/-- No table is taken away. -/
def KeepsTables (d d' : Pgdir) : Prop := ∀ i, d.table i ≠ none → d'.table i ≠ none

/-- The trap is not a read through `NULL`. -/
def NotNull (e : Trap) : Prop := e ≠ .null

theorem kfree_notNull : NotNull .kfree := nofun

variable {L : Layout} {k k' : Kmem} {d d' d'' : Pgdir} {w u : Bool} {n m i j pa va fuel : ℕ}

theorem KeepsTables.refl (d : Pgdir) : KeepsTables d d := fun _ h => h

theorem KeepsTables.trans (h : KeepsTables d d') (h' : KeepsTables d' d'') : KeepsTables d d'' :=
  fun i hi => h' i (h i hi)

theorem PDX_page : PDX (n * PGSIZE) = n / NPTENTRIES := by
  rw [PDX,Nat.mul_div_cancel _ (by decide)]

theorem entry_page : d.entry (n * PGSIZE) = d.pte n := by
  rw [Pgdir.entry,Nat.mul_div_cancel _ (by decide)]

theorem setEntry_pte {e : Option Pte} : (d.setEntry va e).pte = update d.pte (va / PGSIZE) e := rfl

theorem setEntry_page {e : Option Pte} :
    d.setEntry (n * PGSIZE) e = { d with pte := update d.pte n e } := by
  rw [Pgdir.setEntry,Nat.mul_div_cancel _ (by decide)]

theorem walk_iff : d.walk va = true ↔ d.table (PDX va) ≠ none := by
  rw [Pgdir.walk,Option.isSome_iff_ne_none]

theorem Backed.setEntry (h : Backed d) (hw : d.walk va = true) (e : Option Pte) :
    Backed (d.setEntry va e) := by
  intro j hj
  by_cases heq : j = va / PGSIZE
  · exact heq ▸ walk_iff.1 hw
  · refine h j ?_
    have : (d.setEntry va e).pte j = d.pte j := update_of_ne heq _ _
    rwa [this] at hj

/-- What `walkpgdir` adds: a table at most. -/
structure Walked (k k' : Kmem) (d d' : Pgdir) (va : ℕ) : Prop where
  backed : Backed d'
  pte : d'.pte = d.pte
  walk : d'.walk va = true
  table : ∀ i, i ≠ PDX va → d'.table i = d.table i
  keeps : KeepsTables d d'
  free : k.freelist.length ≤ k'.freelist.length + if d.walk va then 0 else 1

theorem walkAlloc_spec (hb : Backed d) (h : walkAlloc k d va = some (k',d')) :
    Walked k k' d d' va := by
  unfold walkAlloc at h
  split at h
  next hw =>
    cases h
    exact ⟨hb,rfl,hw,fun _ _ => rfl,.refl d,by simp⟩
  next hw =>
    obtain ⟨⟨k1,pgtab⟩,hk,heq⟩ := Option.map_eq_some_iff.1 h
    cases heq
    have hnone : d.table (PDX va) = none := by simpa [Pgdir.walk] using hw
    -- the entries of the new table are empty before, because there was no table
    have hpte : (fun n => if n / NPTENTRIES = PDX va then none else d.pte n) = d.pte := by
      funext n
      split
      next hn =>
        by_contra hne
        exact hb n (Ne.symm hne) (hn ▸ hnone)
      next => rfl
    have hkeeps : ∀ i, d.table i ≠ none →
        update d.table (PDX va) (some pgtab) i ≠ none := by
      intro i hi
      by_cases heq : i = PDX va
      · rw [heq,update_self]
        exact Option.some_ne_none _
      · rwa [update_of_ne heq]
    refine ⟨fun n hn => hkeeps _ (hb n ?_),hpte,?_,fun i hi => update_of_ne hi _ _, hkeeps,?_⟩
    · exact hpte ▸ hn
    · rw [walk_iff]
      dsimp only
      rw [update_self]
      exact Option.some_ne_none _
    · unfold kalloc at hk
      split at hk
      next => cases hk
      next r rest hfree =>
        cases hk
        simp [hfree,hw,Kmem.memset]

theorem walkAlloc_isSome (h : d.walk va = true ∨ k.freelist ≠ []) :
    ∃ r, walkAlloc k d va = some r := by
  unfold walkAlloc
  split
  next => exact ⟨_,rfl⟩
  next hw =>
    have hfree := h.resolve_left hw
    unfold kalloc
    split
    next hnil => exact absurd hnil hfree
    next => exact ⟨_,rfl⟩

section Free

/-! Freeing pages stops in `kfree` only. -/

variable {E : Trap → Prop}

theorem kfree_sat (hE : E .kfree) (L : Layout) (k : Kmem) (pa : ℕ) :
    Sat E (fun _ => True) (kfree L k pa) := by
  unfold kfree
  split
  · exact sat_error.2 hE
  · exact sat_ok.2 trivial

theorem deallocLoop_sat (hE : E .kfree) (L : Layout) (oldsz fuel : ℕ) (k : Kmem) (d : Pgdir) (a : ℕ) :
    Sat E (fun _ => True) (deallocLoop L oldsz fuel k d a) := by
  induction fuel generalizing k d a with
  | zero => exact sat_ok.2 trivial
  | succ fuel ih =>
    unfold deallocLoop
    split
    next =>
      split
      next =>
        split
        next => exact ih _ _ _
        next e _ =>
          split
          next => exact sat_error.2 hE
          next => exact (kfree_sat hE L k e.addr).bind fun k _ => ih _ _ _
      next => exact ih _ _ _
    next => exact sat_ok.2 trivial

theorem deallocuvm_sat (hE : E .kfree) (L : Layout) (k : Kmem) (d : Pgdir) (oldsz newsz : ℕ) :
    Sat E (fun _ => True) (deallocuvm L k d oldsz newsz) := by
  unfold deallocuvm
  split
  · exact sat_ok.2 trivial
  · exact (deallocLoop_sat hE ..).bind fun r _ => sat_pure.2 trivial

theorem freeTables_sat (hE : E .kfree) (L : Layout) (d : Pgdir) (is : List ℕ) (k : Kmem) :
    Sat E (fun _ => True) (freeTables L d is k) := by
  induction is generalizing k with
  | nil => exact sat_ok.2 trivial
  | cons i rest ih =>
    unfold freeTables
    split
    · exact ih k
    · exact (kfree_sat hE ..).bind fun k _ => ih k

theorem freevm_sat (hE : E .kfree) (L : Layout) (k : Kmem) (d : Pgdir) :
    Sat E (fun _ => True) (freevm L k d) := by
  exact (deallocuvm_sat hE ..).bind fun r _ =>
    (freeTables_sat hE ..).bind fun k _ => kfree_sat hE ..

end Free

/-- The pages that `mappages` takes for tables. -/
def tablesFor (d : Pgdir) (n m : ℕ) : ℕ :=
  m / NPTENTRIES - n / NPTENTRIES + if d.walk (n * PGSIZE) then 0 else 1

theorem tablesFor_succ {e : Option Pte} (hs : Walked k k' d d' (n * PGSIZE)) (hnm : n < m) :
    tablesFor (d'.setEntry (n * PGSIZE) e) (n + 1) m ≤ m / NPTENTRIES - n / NPTENTRIES := by
  have hmono : (n + 1) / NPTENTRIES ≤ m / NPTENTRIES := Nat.div_le_div_right hnm
  unfold tablesFor
  by_cases heq : (n + 1) / NPTENTRIES = n / NPTENTRIES
  · have hwalk : (d'.setEntry (n * PGSIZE) e).walk ((n + 1) * PGSIZE) = true := by
      rw [walk_iff,PDX_page,heq,← PDX_page]
      exact walk_iff.1 hs.walk
    rw [if_pos hwalk,heq,Nat.add_zero]
  · have hnext : (n + 1) / NPTENTRIES = n / NPTENTRIES + 1 := by
      unfold NPTENTRIES at heq ⊢
      omega
    split <;> omega

/-- After the loop of `mappages` over the pages from `n` to `m`: the entries as they are asked for, or
some of them and not the last one, where there was no page for a table. -/
structure Mapping (w u : Bool) (n m pa : ℕ) (k : Kmem) (d : Pgdir) (k' : Kmem) (d' : Pgdir)
    (done : Bool) : Prop where
  backed : Backed d'
  keeps : KeepsTables d d'
  pte : ∀ j, j < n ∨ m < j → d'.pte j = d.pte j
  table : ∀ i, i < n / NPTENTRIES ∨ m / NPTENTRIES < i → d'.table i = d.table i
  mapped : done = true → ∀ j, n ≤ j → j ≤ m → ∃ a, d'.pte j = some ⟨a,w,u⟩ ∧
    (pa < 2 ^ 32 → a = (pa + (j - n) * PGSIZE) % 2 ^ 32)
  failed : done = false → d'.pte m = d.pte m ∧ k.freelist.length < tablesFor d n m
  free : k.freelist.length ≤ k'.freelist.length + tablesFor d n m

theorem mapLoop_weak (hb : Backed d) (last a : ℕ) :
    Sat NotNull (fun r => Backed r.2.1 ∧ KeepsTables d r.2.1) (mapLoop last w u fuel k d a pa) := by
  induction fuel generalizing k d a pa with
  | zero => exact sat_ok.2 ⟨hb,.refl d⟩
  | succ fuel ih =>
    unfold mapLoop
    split
    next => exact sat_ok.2 ⟨hb,.refl d⟩
    next k1 d1 hwalk =>
      have hs := walkAlloc_spec hb hwalk
      split
      next => exact sat_error.2 nofun
      next =>
        have hb' := hs.backed.setEntry hs.walk (some ⟨pa,w,u⟩)
        split
        next => exact sat_ok.2 ⟨hb',hs.keeps⟩
        next => exact (ih hb' _).mono fun r hr => ⟨hr.1,hs.keeps.trans hr.2⟩

theorem next_page (hn : n < 2 ^ 20) (hne : n + 1 ≠ 2 ^ 20) :
    (n * PGSIZE + PGSIZE) % 2 ^ 32 = (n + 1) * PGSIZE := by
  unfold PGSIZE
  omega

theorem Mapping.cons {b : Bool} {k'' : Kmem} (hs : Walked k k' d d' (n * PGSIZE))
    (h : Mapping w u (n + 1) m ((pa + PGSIZE) % 2 ^ 32) k'
      (d'.setEntry (n * PGSIZE) (some ⟨pa,w,u⟩)) k'' d'' b) (hnm : n < m) :
    Mapping w u n m pa k d k'' d'' b := by
  have hpte : (d'.setEntry (n * PGSIZE) (some ⟨pa,w,u⟩)).pte =
      update d.pte n (some ⟨pa,w,u⟩) := by rw [setEntry_page,hs.pte]
  have hk := hs.free
  have hsucc := tablesFor_succ (e := some ⟨pa,w,u⟩) hs hnm
  have hneed : tablesFor d n m =
    m / NPTENTRIES - n / NPTENTRIES + if d.walk (n * PGSIZE) then 0 else 1 := rfl
  refine ⟨h.backed,hs.keeps.trans h.keeps,fun j hj => ?_,fun i hi => ?_,fun hb j hj hjm => ?_,
    fun hb => ⟨?_,?_⟩,?_⟩
  · rw [h.pte j (by omega),hpte,update_of_ne (by omega)]
  · have hmono : n / NPTENTRIES ≤ (n + 1) / NPTENTRIES := Nat.div_le_div_right (by omega)
    have hmono' : n / NPTENTRIES ≤ m / NPTENTRIES := Nat.div_le_div_right (Nat.le_of_lt hnm)
    rw [h.table i (by omega)]
    refine hs.table i ?_
    rw [PDX_page]
    omega
  · by_cases heq : j = n
    · refine ⟨pa,?_,fun hpa => ?_⟩
      · rw [heq,h.pte n (by omega),hpte,update_self]
      · rw [heq,Nat.sub_self,Nat.zero_mul,Nat.add_zero,Nat.mod_eq_of_lt hpa]
    · obtain ⟨a,ha,haddr⟩ := h.mapped hb j (by omega) hjm
      obtain ⟨i,rfl⟩ : ∃ i, j = n + 1 + i := ⟨j - (n + 1),by omega⟩
      refine ⟨a,ha,fun _ => ?_⟩
      rw [haddr (Nat.mod_lt _ (by decide)),Nat.add_sub_cancel_left,
        show n + 1 + i - n = i + 1 by omega,Nat.mod_add_mod,Nat.succ_mul,Nat.add_assoc,
        Nat.add_comm PGSIZE]
  · rw [(h.failed hb).1,hpte,update_of_ne (by omega)]
  · have := (h.failed hb).2
    omega
  · have := h.free
    omega

/-- The loop of `mappages` over the pages from `n` to `m` stops only at a page that is mapped. -/
theorem mapLoop_spec {E : Trap → Prop} (k : Kmem) (pa : ℕ) (hb : Backed d) (hnm : n ≤ m)
    (hm : m < 2 ^ 20) (hf : m - n < fuel) (hE : ∀ j, n ≤ j → j ≤ m → d.pte j ≠ none → E .remap) :
    Sat E (fun r => Mapping w u n m pa k d r.1 r.2.1 r.2.2)
      (mapLoop (m * PGSIZE) w u fuel k d (n * PGSIZE) pa) := by
  induction fuel generalizing k d n pa with
  | zero => omega
  | succ fuel ih =>
    unfold mapLoop
    split
    next hwalk =>
      refine sat_ok.2 ⟨hb,.refl d,fun _ _ => rfl,fun _ _ => rfl,nofun,fun _ => ⟨rfl,?_⟩,
        Nat.le_add_right _ _⟩
      have hno : ¬ (d.walk (n * PGSIZE) = true ∨ k.freelist ≠ []) := by
        intro h
        obtain ⟨r,hr⟩ := walkAlloc_isSome h
        cases hwalk.symm.trans hr
      obtain ⟨hw,hnil⟩ := not_or.1 hno
      rw [tablesFor,if_neg hw,not_not.1 hnil]
      exact Nat.succ_pos _
    next k1 d1 hwalk =>
      have hs := walkAlloc_spec hb hwalk
      have hb' := hs.backed.setEntry hs.walk (some ⟨pa,w,u⟩)
      have hpte : (d1.setEntry (n * PGSIZE) (some ⟨pa,w,u⟩)).pte =
          update d.pte n (some ⟨pa,w,u⟩) := by rw [setEntry_page,hs.pte]
      split
      next hentry =>
        rw [entry_page,hs.pte,Option.isSome_iff_ne_none] at hentry
        exact sat_error.2 (hE n le_rfl hnm hentry)
      next =>
        split
        next hlast =>
          obtain rfl : n = m := Nat.eq_of_mul_eq_mul_right (by decide) hlast
          refine sat_ok.2 ⟨hb',hs.keeps,fun j hj => ?_,fun i hi => ?_,fun _ j hj hjm => ?_,
            nofun,Nat.le_trans hs.free (Nat.add_le_add_left (Nat.le_add_left _ _) _)⟩
          · rw [hpte,update_of_ne (by omega)]
          · exact hs.table i (by rw [PDX_page]; omega)
          · obtain rfl : j = n := by omega
            refine ⟨pa,by rw [hpte,update_self],fun hpa => ?_⟩
            rw [Nat.sub_self,Nat.zero_mul,Nat.add_zero,Nat.mod_eq_of_lt hpa]
        next hlast =>
          have hne : n ≠ m := fun heq => hlast (heq ▸ rfl)
          rw [next_page (by omega) (by omega)]
          refine (ih _ _ hb' (by omega) (by omega) fun j hj hjm hne => ?_).mono
            fun r hr => .cons hs hr (by omega)
          rw [hpte,update_of_ne (by omega)] at hne
          exact hE j (by omega) hjm hne

theorem mappages_eq (size : ℕ) (h : (n * PGSIZE + size * PGSIZE) ≤ 2 ^ 32) (hpos : 1 ≤ size) :
    mappages k d (n * PGSIZE) (size * PGSIZE % 2 ^ 32) pa w u =
      mapLoop ((n + size - 1) * PGSIZE) w u (2 ^ 20) k d (n * PGSIZE) pa := by
  have hlast : PGROUNDDOWN ((n * PGSIZE + size * PGSIZE % 2 ^ 32 + (2 ^ 32 - 1)) % 2 ^ 32) =
      (n + size - 1) * PGSIZE := by
    unfold PGROUNDDOWN PGSIZE at *
    omega
  have hfirst : PGROUNDDOWN (n * PGSIZE) = n * PGSIZE := by
    unfold PGROUNDDOWN PGSIZE
    omega
  rw [mappages,hlast,hfirst]

/-- `mappages` of whole pages succeeds where none is mapped and there are pages for the tables. -/
theorem mappages_total (pa size : ℕ) (hb : Backed d) (h : (n * PGSIZE + size * PGSIZE) ≤ 2 ^ 32)
    (hpos : 1 ≤ size) (hnone : ∀ j, n ≤ j → j < n + size → d.pte j = none)
    (hfree : (n + size - 1) / NPTENTRIES - n / NPTENTRIES + 1 ≤ k.freelist.length) :
    ∃ k' d', mappages k d (n * PGSIZE) (size * PGSIZE % 2 ^ 32) pa w u = .ok (k',d',true) ∧
      Mapping w u n (n + size - 1) pa k d k' d' true ∧ k.freelist.length ≤
        k'.freelist.length + ((n + size - 1) / NPTENTRIES - n / NPTENTRIES + 1) := by
  have hm : n + size - 1 < 2 ^ 20 := by
    unfold PGSIZE at h
    omega
  have htables : tablesFor d n (n + size - 1) ≤
      (n + size - 1) / NPTENTRIES - n / NPTENTRIES + 1 := by
    unfold tablesFor
    split <;> omega
  rw [mappages_eq size h hpos]
  obtain ⟨⟨k',d',b⟩,hloop,hr⟩ := (mapLoop_spec (w := w) (u := u) k pa hb
    (show n ≤ n + size - 1 by omega) hm (show n + size - 1 - n < 2 ^ 20 by omega)
    fun j hj hj' hne => hne (hnone j hj (by omega))).returns
  cases b with
  | false =>
    have := (hr.failed rfl).2
    omega
  | true => exact ⟨k',d',hloop,hr,Nat.le_trans hr.free (Nat.add_le_add_left htables _)⟩

/-- The memory of a program under construction: the pages below `sz` are there, and so are the tables
of the device space, which users cannot reach. -/
structure Space (d : Pgdir) (sz : ℕ) : Prop where
  backed : Backed d
  user : ∀ n, n * PGSIZE < sz → d.pte n ≠ none
  dev : ∀ n, DEVSPACE / PGSIZE ≤ n → n < 2 ^ 20 →
    d.table (n / NPTENTRIES) ≠ none ∧ ∀ e, d.pte n = some e → e.u = false

theorem pages_nil {a stop : ℕ} (h : stop ≤ a) : pages a stop = [] := by
  have : (stop + (PGSIZE - 1) - a) / PGSIZE = 0 := by
    unfold PGSIZE
    omega
  rw [pages,this]
  rfl

theorem pages_cons {a stop : ℕ} (h : a < stop) : pages a stop = a :: pages (a + PGSIZE) stop := by
  have hlen : (stop + (PGSIZE - 1) - a) / PGSIZE =
      (stop + (PGSIZE - 1) - (a + PGSIZE)) / PGSIZE + 1 := by
    unfold PGSIZE
    omega
  rw [pages,hlen,range_succ_eq_map,map_cons,map_map,pages,Nat.zero_mul, Nat.add_zero]
  congr 2
  funext i
  simp only [Function.comp_apply,Nat.succ_mul]
  omega

theorem Space.mapping (h : Space d (n * PGSIZE)) (hn : n < KERNBASE / PGSIZE) {b : Bool}
    (hmap : Mapping true true n n pa k d k' d' b) (hb : b = true) : Space d' ((n + 1) * PGSIZE) := by
  have hdev : KERNBASE / PGSIZE ≤ DEVSPACE / PGSIZE := by decide
  refine ⟨hmap.backed,fun j hj => ?_,fun j hj hj' => ?_⟩
  · by_cases heq : j = n
    · obtain ⟨pa,hpa,-⟩ := hmap.mapped hb n (Nat.le_refl n) (Nat.le_refl n)
      rw [heq,hpa]
      exact Option.some_ne_none _
    · have hlt : j < n + 1 := Nat.lt_of_mul_lt_mul_right hj
      rw [hmap.pte j (by omega)]
      exact h.user j (Nat.mul_lt_mul_of_pos_right (by omega) (by decide))
  · obtain ⟨htable,hu⟩ := h.dev j hj hj'
    refine ⟨hmap.keeps _ htable,fun e he => hu e ?_⟩
    rw [← he,hmap.pte j (by omega)]

theorem Space.mono {sz sz' : ℕ} (h : Space d sz) (hle : sz' ≤ sz) : Space d sz' :=
  ⟨h.backed,fun n hn => h.user n (Nat.lt_of_lt_of_le hn hle),h.dev⟩

/-- The pages below a size are those below it rounded up. -/
theorem Space.roundup {sz : ℕ} (h : Space d sz) (hsz : sz < KERNBASE) : Space d (PGROUNDUP sz) := by
  refine ⟨h.backed,fun n hn => h.user n ?_,h.dev⟩
  unfold PGROUNDUP KERNBASE PGSIZE at *
  omega

/-- What a part of `exec` leaves where it goes on. -/
def Grown (r : Kmem × Pgdir × ℕ) : Prop := r.2.2 ≠ 0 → Space r.2.1 r.2.2

theorem grown_zero (k : Kmem) (d : Pgdir) : Grown (k,d,0) := fun h => absurd rfl h

theorem allocLoop_space {newsz : ℕ} (L : Layout) (oldsz : ℕ) (hnew : newsz < KERNBASE) (c : ℕ)
    (h : Space d (n * PGSIZE)) (hc : newsz ≤ (n + c) * PGSIZE) :
    Sat NotNull Grown (allocLoop L oldsz newsz (pages (n * PGSIZE) newsz) k d) := by
  induction c generalizing n k d with
  | zero =>
    rw [Nat.add_zero] at hc
    rw [pages_nil hc]
    exact sat_ok.2 fun _ => h.mono hc
  | succ c ih =>
    by_cases hlt : n * PGSIZE < newsz
    · have hn : n < KERNBASE / PGSIZE := by
        unfold KERNBASE PGSIZE at *
        omega
      rw [pages_cons hlt]
      unfold allocLoop
      split
      next => exact (deallocuvm_sat kfree_notNull ..).bind fun r _ => sat_pure.2 (grown_zero _ _)
      next k1 mem _ =>
        have hmap : mappages (k1.memset mem 0) d (n * PGSIZE) PGSIZE mem true true =
            mapLoop (n * PGSIZE) true true (2 ^ 20) (k1.memset mem 0) d (n * PGSIZE) mem := by
          refine mappages_eq 1 ?_ (Nat.le_refl 1)
          unfold KERNBASE PGSIZE at *
          omega
        have hlast : n < 2 ^ 20 := by
          unfold KERNBASE PGSIZE at hn
          omega
        rw [hmap]
        refine (mapLoop_spec _ _ h.backed (Nat.le_refl n) hlast (by omega) fun _ _ _ _ =>
          nofun).bind fun r hr => ?_
        split
        next hdone =>
          have h' := h.mapping hn hr hdone
          rw [← Nat.succ_mul]
          exact ih h' (by rwa [Nat.succ_add])
        next =>
          exact (deallocuvm_sat kfree_notNull ..).bind fun r _ => (kfree_sat kfree_notNull ..).bind fun k _ =>
            sat_pure.2 (grown_zero _ _)
    · rw [pages_nil (Nat.le_of_not_lt hlt)]
      exact sat_ok.2 fun _ => h.mono (Nat.le_of_not_lt hlt)

/-- `allocuvm` maps the pages below the size that it returns. -/
theorem allocuvm_space {oldsz : ℕ} (L : Layout) (k : Kmem) (h : Space d oldsz) (newsz : ℕ) :
    Sat NotNull Grown (allocuvm L k d oldsz newsz) := by
  unfold allocuvm
  split
  next => exact sat_ok.2 (grown_zero k d)
  next hbase =>
    split
    next => exact sat_ok.2 fun _ => h
    next hle =>
      have hup := h.roundup (by omega)
      have hpage : PGROUNDUP oldsz = PGROUNDUP oldsz / PGSIZE * PGSIZE := by
        unfold PGROUNDUP PGSIZE
        omega
      rw [hpage] at hup ⊢
      refine allocLoop_space L oldsz (Nat.lt_of_not_le hbase) newsz hup ?_
      exact Nat.le_trans (Nat.le_add_left newsz _) (Nat.le_mul_of_pos_right _ (by decide))

end Xv6.Vm
