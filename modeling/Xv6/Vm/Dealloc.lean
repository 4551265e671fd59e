import Xv6.Vm.Pages

/-! # `deallocuvm`

Where a page table is missing, the loop of `deallocuvm` goes on at the next table.  It does the same
as the loop that looks at every page. -/
namespace Xv6.Vm
open Function Pgdir Result List

def Pgdir.present (d : Pgdir) (va : ℕ) : Option Pte := if d.walk va then d.entry va else none

/-- The loop over all the pages. -/
def plainLoop (L : Layout) : List ℕ → Kmem → Pgdir → Except Trap (Kmem × Pgdir)
  | [], k, d => .ok (k,d)
  | a :: rest, k, d =>
    match d.present a with
    | none => plainLoop L rest k d
    | some e =>
      if e.addr = 0 then .error .kfree
      else do
        let k ← kfree L k e.addr
        plainLoop L rest k (d.setEntry a none)

/-- `deallocuvm` with the plain loop. -/
def deallocPlain (L : Layout) (k : Kmem) (d : Pgdir) (oldsz newsz : ℕ) :
    Except Trap (Kmem × Pgdir × ℕ) := do
  let r ← plainLoop L (pages (PGROUNDUP newsz) oldsz) k d
  return (r.1,r.2,newsz)

/-- The pages that the entries at `as` refer to. -/
def Pgdir.at (d : Pgdir) (as : List ℕ) : List ℕ := as.filterMap fun a => (d.present a).map Pte.addr

variable {L : Layout} {k k' : Kmem} {d d' : Pgdir} {n j m fuel oldsz newsz stop : ℕ} {as : List ℕ}

theorem present_page (hb : Backed d) : d.present (n * PGSIZE) = d.pte n := by
  unfold present
  split
  next => exact entry_page
  next hw =>
    by_contra hne
    refine hw (walk_iff.2 ?_)
    rw [PDX_page]
    exact hb n (Ne.symm hne)

theorem present_none (h : d.table (n / NPTENTRIES) = none) : d.present (n * PGSIZE) = none := by
  refine if_neg fun hw => walk_iff.1 hw ?_
  rw [PDX_page,h]

/-- Nothing is done up to the next table. -/
theorem plainLoop_skip (k : Kmem) (h : d.table (n / NPTENTRIES) = none) (c : ℕ)
    (hc : n + c = (n / NPTENTRIES + 1) * NPTENTRIES) : plainLoop L (pages (n * PGSIZE) stop) k d =
      plainLoop L (pages ((n / NPTENTRIES + 1) * NPTENTRIES * PGSIZE) stop) k d := by
  induction c generalizing n with
  | zero => rw [← hc,Nat.add_zero]
  | succ c ih =>
    by_cases hlt : n * PGSIZE < stop
    · rw [pages_cons hlt,plainLoop,present_none h]
      rw [← Nat.add_one_mul]
      by_cases hsame : (n + 1) / NPTENTRIES = n / NPTENTRIES
      · rw [← hsame] at h hc ⊢
        exact ih h (by omega)
      · have hc0 : n + 1 = (n / NPTENTRIES + 1) * NPTENTRIES := by
          unfold NPTENTRIES at *
          omega
        rw [hc0]
    · have hle : n * PGSIZE ≤ (n / NPTENTRIES + 1) * NPTENTRIES * PGSIZE := by
        rw [← hc]
        exact Nat.mul_le_mul_right _ (Nat.le_add_right _ _)
      rw [pages_nil (by omega),pages_nil (by omega)]

/-- The fuel pays for every page that is left. -/
theorem deallocLoop_eq (hold : oldsz ≤ KERNBASE) (k : Kmem) (d : Pgdir)
    (hf : oldsz ≤ (n + fuel) * PGSIZE) :
    deallocLoop L oldsz fuel k d (n * PGSIZE) = plainLoop L (pages (n * PGSIZE) oldsz) k d := by
  induction fuel generalizing k d n with
  | zero =>
    rw [pages_nil (by rwa [Nat.add_zero] at hf)]
    rfl
  | succ fuel ih =>
    unfold deallocLoop
    split
    next hlt =>
      have hnext : oldsz ≤ (n + 1 + fuel) * PGSIZE := by rwa [Nat.add_assoc,Nat.add_comm 1]
      split
      next hw =>
        rw [pages_cons hlt,plainLoop,present,if_pos hw]
        have ih' := fun k d => ih k d hnext
        rw [Nat.succ_mul] at ih'
        cases d.entry (n * PGSIZE) with
        | none => exact ih' k d
        | some e =>
          dsimp only
          split
          next => rfl
          next => exact congrArg _ (funext fun k => ih' k _)
      next hw =>
        have hnone : d.table (n / NPTENTRIES) = none := by
          rw [← PDX_page]
          exact not_ne_iff.1 fun hne => hw (walk_iff.2 hne)
        have hwrap : (n / NPTENTRIES + 1) * NPTENTRIES * PGSIZE % 2 ^ 32 =
            (n / NPTENTRIES + 1) * NPTENTRIES * PGSIZE := by
          unfold NPTENTRIES PGSIZE KERNBASE at *
          omega
        have hbound : n + 1 ≤ (n / NPTENTRIES + 1) * NPTENTRIES := by
          unfold NPTENTRIES
          omega
        rw [PDX_page,hwrap,plainLoop_skip k hnone ((n / NPTENTRIES + 1) * NPTENTRIES - n) (by omega)]
        refine ih k d (hnext.trans (Nat.mul_le_mul_right _ ?_))
        omega
    next hge =>
      rw [pages_nil (by omega)]
      rfl

theorem PGROUNDUP_page (h : newsz ≤ KERNBASE) : ∃ n, PGROUNDUP newsz = n * PGSIZE ∧
    newsz ≤ n * PGSIZE ∧ n * PGSIZE < newsz + PGSIZE := by
  refine ⟨_,rfl,?_⟩
  unfold KERNBASE PGSIZE at *
  omega

theorem PGROUNDUP_bounds (h : newsz ≤ KERNBASE) (hn : PGROUNDUP newsz = n * PGSIZE) :
    newsz ≤ n * PGSIZE ∧ n * PGSIZE < newsz + PGSIZE ∧ n ≤ NUSER := by
  obtain ⟨m,hm,hle,hlt⟩ := PGROUNDUP_page h
  have hnm : n = m := Nat.eq_of_mul_eq_mul_right (by decide) (hn.symm.trans hm)
  subst hnm
  refine ⟨hle,hlt,?_⟩
  rw [NUSER_eq]
  unfold KERNBASE PGSIZE at *
  omega

theorem deallocuvm_plain (k : Kmem) (d : Pgdir) (hlt : newsz < oldsz) (hold : oldsz ≤ KERNBASE) :
    deallocuvm L k d oldsz newsz = deallocPlain L k d oldsz newsz := by
  obtain ⟨n,hn,-,-⟩ := PGROUNDUP_page (hlt.le.trans hold)
  rw [deallocuvm,if_neg (by omega),deallocPlain,hn,deallocLoop_eq hold]
  unfold PGSIZE
  omega

/-- What is different after the entries at `as` are freed. -/
structure Freed (as : List ℕ) (k : Kmem) (d : Pgdir) (k' : Kmem) (d' : Pgdir) : Prop where
  addr : d'.addr = d.addr
  table : d'.table = d.table
  pte : ∀ n, d'.pte n = if n * PGSIZE ∈ as ∧ d.walk (n * PGSIZE) then none else d.pte n
  freelist : k'.freelist = (d.at as).reverse ++ k.freelist
  outside : ∀ a, PGROUNDDOWN a ∉ d.at as → k'.mem a = k.mem a

theorem present_setEntry (hne : j ≠ n) (e : Option Pte) :
    (d.setEntry (n * PGSIZE) e).present (j * PGSIZE) = d.present (j * PGSIZE) := by
  unfold present
  rw [setEntry_page,entry_page,entry_page]
  dsimp only
  rw [update_of_ne hne]
  rfl

theorem at_setEntry (e : Option Pte) (hpage : ∀ a ∈ as, ∃ j, a = j * PGSIZE)
    (hn : n * PGSIZE ∉ as) : (d.setEntry (n * PGSIZE) e).at as = d.at as := by
  refine filterMap_congr fun a ha => ?_
  obtain ⟨j,rfl⟩ := hpage a ha
  rw [present_setEntry]
  rintro rfl
  exact hn ha

theorem Freed.nil (k : Kmem) (d : Pgdir) : Freed [] k d k d :=
  ⟨rfl,rfl,fun _ => by simp,rfl,fun _ _ => rfl⟩

theorem Freed.skip (h : Freed as k d k' d') (hnone : d.present (n * PGSIZE) = none) :
    Freed (n * PGSIZE :: as) k d k' d' where
  addr := h.addr
  table := h.table
  pte j := by
    rw [h.pte j]
    by_cases heq : j = n
    · subst heq
      by_cases hw : d.walk (j * PGSIZE) = true
      · have hpte : d.pte j = none := by rwa [present,if_pos hw,entry_page] at hnone
        simp [hw,hpte]
      · simp [hw]
    · have : j * PGSIZE ≠ n * PGSIZE := fun hc => heq (Nat.eq_of_mul_eq_mul_right (by decide) hc)
      simp [this]
  freelist := by
    rw [h.freelist,Pgdir.at,Pgdir.at,filterMap_cons,hnone]
    rfl
  outside a ha := by
    refine h.outside a ?_
    rwa [Pgdir.at,filterMap_cons,hnone] at ha

/-- The page of the first entry is freed. -/
theorem Freed.cons {e : Pte} (h : Freed as { k.memset e.addr 1 with freelist := e.addr :: k.freelist }
    (d.setEntry (n * PGSIZE) none) k' d') (hpage : ∀ a ∈ as, ∃ j, a = j * PGSIZE)
    (hn : n * PGSIZE ∉ as) (he : d.present (n * PGSIZE) = some e) (hp : Page L e.addr) :
    Freed (n * PGSIZE :: as) k d k' d' := by
  have hw : d.walk (n * PGSIZE) = true := by
    by_contra hw
    rw [present,if_neg hw] at he
    cases he
  have hat : d.at (n * PGSIZE :: as) = e.addr :: (d.setEntry (n * PGSIZE) none).at as := by
    rw [at_setEntry none hpage hn,Pgdir.at,filterMap_cons,he]
    rfl
  refine ⟨h.addr,h.table,fun j => ?_,?_,fun a ha => ?_⟩
  · rw [h.pte j,setEntry_page]
    dsimp only
    by_cases heq : j = n
    · subst heq
      simp [hw]
    · have : j * PGSIZE ≠ n * PGSIZE := fun hc => heq (Nat.eq_of_mul_eq_mul_right (by decide) hc)
      rw [update_of_ne heq]
      simp only [mem_cons,this,false_or]
      rfl
  · rw [h.freelist,hat]
    simp
  · rw [hat,mem_cons,not_or] at ha
    rw [h.outside a ha.2]
    exact Outside.memset hp.aligned (Multiset.mem_singleton_self e.addr) k 1 a
      fun hc => ha.1 (Multiset.mem_singleton.1 hc)

theorem plainLoop_freed (hnodup : as.Nodup) (hpage : ∀ a ∈ as, ∃ j, a = j * PGSIZE)
    (hfree : ∀ a ∈ as, ∀ e, d.present a = some e → Page L e.addr) (k : Kmem) :
    ∃ k' d', plainLoop L as k d = .ok (k',d') ∧ Freed as k d k' d' := by
  induction as generalizing k d with
  | nil => exact ⟨k,d,rfl,.nil k d⟩
  | cons a as ih =>
    obtain ⟨hna,hnodup'⟩ := nodup_cons.1 hnodup
    obtain ⟨n,rfl⟩ := hpage a (mem_cons_self ..)
    have hpage' : ∀ a ∈ as, ∃ j, a = j * PGSIZE := fun a ha => hpage a (mem_cons_of_mem _ ha)
    have hfree' : ∀ a ∈ as, ∀ e, d.present a = some e → Page L e.addr :=
      fun a ha => hfree a (mem_cons_of_mem _ ha)
    unfold plainLoop
    split
    next hnone =>
      obtain ⟨k',d',hloop,h⟩ := ih hnodup' hpage' hfree' k
      exact ⟨k',d',hloop,h.skip hnone⟩
    next e he =>
      have hp := hfree _ (mem_cons_self ..) e he
      have hfree'' : ∀ a ∈ as, ∀ e, (d.setEntry (n * PGSIZE) none).present a = some e →
          Page L e.addr := by
        intro a ha e' he'
        obtain ⟨j,rfl⟩ := hpage' a ha
        rw [present_setEntry] at he'
        · exact hfree' _ ha e' he'
        · rintro rfl
          exact hna ha
      obtain ⟨k',d',hloop,h⟩ := ih hnodup' hpage' hfree''
        { k.memset e.addr 1 with freelist := e.addr :: k.freelist }
      refine ⟨k',d',?_,h.cons hpage' hna he hp⟩
      rw [if_neg hp.pos.ne',hp.kfree]
      exact hloop

theorem present_walk {a : ℕ} {e : Pte} (h : d.present a = some e) :
    d.walk a = true ∧ d.entry a = some e := by
  unfold present at h
  split at h
  next hw => exact ⟨hw,h⟩
  next => cases h

/-- Pages move from the directory to the free list. -/
theorem plainLoop_users (hb : Backed d) (hpage : ∀ a ∈ as, ∃ j, j < NUSER ∧ a = j * PGSIZE)
    (h : plainLoop L as k d = .ok (k',d')) : Backed d' ∧ k'.free + d'.users = k.free + d.users := by
  induction as generalizing k d with
  | nil =>
    cases h
    exact ⟨hb,rfl⟩
  | cons a as ih =>
    obtain ⟨n,hn,rfl⟩ := hpage a (mem_cons_self ..)
    have hpage' : ∀ a ∈ as, ∃ j, j < NUSER ∧ a = j * PGSIZE :=
      fun a ha => hpage a (mem_cons_of_mem _ ha)
    unfold plainLoop at h
    split at h
    next => exact ih hb hpage' h
    next e he =>
      split at h
      next => cases h
      next =>
        obtain ⟨hw,hentry⟩ := present_walk he
        rw [entry_page] at hentry
        cases hk : kfree L k e.addr with
        | error t =>
          rw [hk] at h
          cases h
        | ok k1 =>
          rw [hk] at h
          obtain ⟨hb',hsum⟩ := ih (hb.setEntry hw none) hpage' h
          have husers : (d.setEntry (n * PGSIZE) none).users + {e.addr} = d.users := by
            simpa [hentry] using users_setEntry d hn none
          refine ⟨hb',hsum.trans ?_⟩
          rw [(kfree_ok hk).2.1,← Multiset.singleton_add,← husers]
          abel

theorem mem_pages {a : ℕ} : a ∈ pages (n * PGSIZE) stop ↔
    ∃ j, n ≤ j ∧ j * PGSIZE < stop ∧ a = j * PGSIZE := by
  simp only [pages,mem_map,mem_range]
  constructor
  · rintro ⟨i,hi,rfl⟩
    refine ⟨n + i,Nat.le_add_right n i,?_,(Nat.add_mul n i PGSIZE).symm⟩
    unfold PGSIZE at *
    omega
  · rintro ⟨j,hj,hlt,rfl⟩
    refine ⟨j - n,?_,?_⟩
    · unfold PGSIZE at *
      omega
    · rw [← Nat.add_mul,Nat.add_sub_cancel' hj]

theorem pages_nodup (a stop : ℕ) : (pages a stop).Nodup := by
  refine nodup_range.map fun i j hij => ?_
  exact Nat.eq_of_mul_eq_mul_right (m := PGSIZE) (by decide) (Nat.add_left_cancel hij)

/-- The user entries refer to pages that are handed out, each to its own. -/
structure HandedOut (L : Layout) (k : Kmem) (d : Pgdir) : Prop where
  page : ∀ n, n < NUSER → ∀ e, d.present (n * PGSIZE) = some e → Page L e.addr ∧ e.addr ∉ k.freelist
  once : ∀ n m, n < NUSER → m < NUSER → ∀ e e', d.present (n * PGSIZE) = some e →
    d.present (m * PGSIZE) = some e' → e.addr = e'.addr → n = m

theorem at_nodup (h : HandedOut L k d) (hnodup : as.Nodup)
    (hpage : ∀ a ∈ as, ∃ j, j < NUSER ∧ a = j * PGSIZE) : (d.at as).Nodup := by
  induction as with
  | nil => exact nodup_nil
  | cons a as ih =>
    obtain ⟨hna,hnodup'⟩ := nodup_cons.1 hnodup
    obtain ⟨n,hn,rfl⟩ := hpage a (mem_cons_self ..)
    have hpage' : ∀ a ∈ as, ∃ j, j < NUSER ∧ a = j * PGSIZE :=
      fun a ha => hpage a (mem_cons_of_mem _ ha)
    have hrest := ih hnodup' hpage'
    rw [Pgdir.at,filterMap_cons]
    cases he : d.present (n * PGSIZE) with
    | none => exact hrest
    | some e =>
      refine nodup_cons.2 ⟨fun hmem => hna ?_,hrest⟩
      obtain ⟨b,hb,hbe⟩ := mem_filterMap.1 hmem
      obtain ⟨m,hm,rfl⟩ := hpage' b hb
      obtain ⟨e',he',haddr⟩ := Option.map_eq_some_iff.1 hbe
      rw [h.once n m hn hm e e' he he' haddr.symm]
      exact hb

theorem user_page (hold : oldsz ≤ KERNBASE) {a : ℕ} (h : a ∈ pages (n * PGSIZE) oldsz) :
    ∃ j, j < NUSER ∧ a = j * PGSIZE := by
  obtain ⟨j,-,hlt,rfl⟩ := mem_pages.1 h
  refine ⟨j,?_,rfl⟩
  rw [NUSER_eq]
  unfold KERNBASE PGSIZE at *
  omega

/-- `deallocuvm` is the loop over all the pages: each present page from `PGROUNDUP(newsz)` to `oldsz`
is freed once and its entry cleared, and nothing else is different. -/
theorem deallocuvm_skips_exactly (h : HandedOut L k d) (hlt : newsz < oldsz)
    (hold : oldsz ≤ KERNBASE) :
    (∀ fuel, oldsz / PGSIZE + 1 ≤ fuel → deallocLoop L oldsz fuel k d (PGROUNDUP newsz) =
      plainLoop L (pages (PGROUNDUP newsz) oldsz) k d) ∧
    deallocuvm L k d oldsz newsz = deallocPlain L k d oldsz newsz ∧
    (d.at (pages (PGROUNDUP newsz) oldsz)).Nodup ∧
    ∃ k' d', deallocuvm L k d oldsz newsz = .ok (k',d',newsz) ∧
      Freed (pages (PGROUNDUP newsz) oldsz) k d k' d' := by
  obtain ⟨n,hn,-,-⟩ := PGROUNDUP_page (hlt.le.trans hold)
  have hpage : ∀ a ∈ pages (n * PGSIZE) oldsz, ∃ j, j < NUSER ∧ a = j * PGSIZE :=
    fun a ha => user_page hold ha
  have hplain := deallocuvm_plain (L := L) k d hlt hold
  obtain ⟨k',d',hloop,hfreed⟩ := plainLoop_freed (L := L) (d := d)
    (pages_nodup (n * PGSIZE) oldsz) (fun a ha => (hpage a ha).imp fun j hj => hj.2)
    (fun a ha e he => by
      obtain ⟨j,hj,rfl⟩ := hpage a ha
      exact (h.page j hj e he).1) k
  rw [hn]
  refine ⟨fun fuel hf => deallocLoop_eq hold k d ?_,hplain,
    at_nodup h (pages_nodup _ _) hpage,k',d',?_,hfreed⟩
  · unfold PGSIZE at *
    omega
  · rw [hplain,deallocPlain,hn,hloop]
    rfl

/-- Two user pages, with a missing table between theirs. -/
def sparse : Pgdir where
  addr := 0x404000
  table i := if i = 0 then some 0x402000 else if i = 2 then some 0x403000 else none
  pte n := if n = 0 then some ⟨0x400000,true,true⟩
    else if n = 2048 then some ⟨0x401000,true,true⟩ else none

theorem sparse_pte {e : Pte} (h : sparse.present (n * PGSIZE) = some e) :
    n = 0 ∧ e = ⟨0x400000,true,true⟩ ∨ n = 2048 ∧ e = ⟨0x401000,true,true⟩ := by
  have hentry := (present_walk h).2
  rw [entry_page] at hentry
  simp only [sparse] at hentry
  split at hentry
  next hn => exact .inl ⟨hn,(Option.some.inj hentry).symm⟩
  next =>
    split at hentry
    next hn => exact .inr ⟨hn,(Option.some.inj hentry).symm⟩
    next => cases hentry

theorem sparse_handedOut : HandedOut ⟨KERNLINK,KERNBASE⟩ ⟨[],fun _ => 0⟩ sparse where
  page n _ e he := by
    rcases sparse_pte he with ⟨-,rfl⟩ | ⟨-,rfl⟩ <;>
      exact ⟨⟨by decide,by decide,by decide,by decide⟩,nofun⟩
  once n m _ _ e e' he he' heq := by
    rcases sparse_pte he with ⟨rfl,rfl⟩ | ⟨rfl,rfl⟩ <;>
      rcases sparse_pte he' with ⟨rfl,rfl⟩ | ⟨rfl,rfl⟩ <;> first | rfl | cases heq

theorem deallocuvm_skips_exactly_sparse :
    ∃ k' d', deallocuvm ⟨KERNLINK,KERNBASE⟩ ⟨[],fun _ => 0⟩ sparse KERNBASE 1 = .ok (k',d',1) ∧
      Freed (pages (PGROUNDUP 1) KERNBASE) ⟨[],fun _ => 0⟩ sparse k' d' :=
  (deallocuvm_skips_exactly sparse_handedOut (by decide) (Nat.le_refl _)).2.2.2

end Xv6.Vm
