import Xv6.Vm.Alloc

/-! # `growproc`

A process grows or shrinks as it is asked to, or nothing is different.  To shrink to nothing, or
below, is the exception. -/
namespace Xv6.Vm
open Function (update)
open Result Option

/-- The process has the pages below its size, and for itself. -/
structure Proc.Sound (L : Layout) (k : Kmem) (p : Proc) : Prop where
  owned : Owned L k p.pgdir
  size : p.sz < KERNBASE
  present : ∀ va, va < KERNBASE → (p.pgdir.present va ≠ none ↔ va < PGROUNDUP p.sz)

/-- The memory is larger or smaller by `n`. -/
structure Resized (n : ℤ) (k : Kmem) (p : Proc) (k' : Kmem) (p' : Proc) : Prop where
  size : (p'.sz : ℤ) = p.sz + n
  below : p'.sz < KERNBASE
  present : ∀ va, va < KERNBASE → (p'.pgdir.present va ≠ none ↔ va < PGROUNDUP p'.sz)
  bytes : ∀ va, va < min p.sz p'.sz → p'.pgdir.byte k' va = p.pgdir.byte k va
  zero : ∀ va, PGROUNDUP p.sz ≤ va → va < PGROUNDUP p'.sz → p'.pgdir.byte k' va = some 0

structure Unchanged (k : Kmem) (p : Proc) (k' : Kmem) (p' : Proc) : Prop where
  size : p'.sz = p.sz
  present : ∀ va, va < KERNBASE → p'.pgdir.present va = p.pgdir.present va
  bytes : ∀ va, va < KERNBASE → p'.pgdir.byte k' va = p.pgdir.byte k va

variable {L : Layout} {k k' : Kmem} {d d' : Pgdir} {p : Proc} {n m va newsz : ℕ}

theorem Proc.Sound.pte (h : p.Sound L k) (hn : PGROUNDUP p.sz = n * PGSIZE) {j : ℕ} (hj : j < NUSER) :
    p.pgdir.pte j ≠ none ↔ j < n := by
  have hlt : j * PGSIZE < KERNBASE := by
    rw [NUSER_eq] at hj
    unfold PGSIZE KERNBASE
    omega
  have hiff := h.present (j * PGSIZE) hlt
  rwa [present_page h.owned.backed,hn,Nat.mul_lt_mul_right (by decide)] at hiff

theorem Proc.Sound.empty (h : p.Sound L k) (hn : PGROUNDUP p.sz = n * PGSIZE) {j : ℕ}
    (hj : n ≤ j) (hj' : j < NUSER) : p.pgdir.pte j = none :=
  not_ne_iff.1 fun hne => absurd ((h.pte hn hj').1 hne) (by omega)

/-- Where the directory has the pages below `m`. -/
theorem present_iff (hb : Backed d') (hpte : ∀ j, j < NUSER → (d'.pte j ≠ none ↔ j < m))
    (hva : va < KERNBASE) : d'.present va ≠ none ↔ va < m * PGSIZE := by
  rw [present_eq hb,hpte _ (page_lt_NUSER hva),lt_page]

theorem Proc.Sound.unchanged (h : p.Sound L k) (hpte : ∀ j, j < NUSER → d'.pte j = p.pgdir.pte j)
    (hb : Backed d') (hout : Outside k.free k k') : Unchanged k p k' { p with pgdir := d' } := by
  have hpresent : ∀ va, va < KERNBASE → d'.present va = p.pgdir.present va := by
    intro va hva
    rw [present_eq hb,present_eq h.owned.backed,hpte _ (page_lt_NUSER hva)]
  exact ⟨rfl,hpresent,fun va hva => h.owned.byte_free hva (hpresent va hva) hout⟩

/-- The memory grows by zero bytes, or is as it was. -/
theorem Proc.Sound.allocuvm (h : p.Sound L k) (hle : p.sz ≤ newsz) (hnew : newsz < KERNBASE) :
    Sat (fun _ => False) (fun r => r.2.2 = newsz ∧
        Resized (newsz - p.sz) k p r.1 { p with pgdir := r.2.1, sz := newsz } ∨
      r.2.2 = 0 ∧ Unchanged k p r.1 { p with pgdir := r.2.1 }) (allocuvm L k p.pgdir p.sz newsz) := by
  obtain ⟨n,m,hr,hn,hm,hm1,hm2⟩ := range_of_le hle hnew
  have hnone : ∀ j, n ≤ j → j < NUSER → p.pgdir.pte j = none := fun j => h.empty hr.first
  refine (allocuvm_allocated hr hnew hle h.owned hnone).mono ?_
  rintro ⟨k',d',sz⟩ ⟨hext,⟨rfl,hzero⟩ | ⟨rfl,hzero⟩⟩
  · left
    have hpte : ∀ j, j < NUSER → (d'.pte j ≠ none ↔ j < m) := by
      intro j hj
      by_cases hjn : j < n
      · rw [hext.old j (.inl hjn),h.pte hr.first hj]
        have hle' := hr.le
        omega
      · by_cases hjm : j < m
        · obtain ⟨pa,hpa,-⟩ := hzero.filled j (by omega) hjm
          rw [hpa]
          exact iff_of_true (some_ne_none _) hjm
        · rw [hzero.empty j (by omega) hj]
          exact iff_of_false (fun hne => hne rfl) hjm
    refine ⟨rfl,by dsimp only; omega,hnew,fun va hva => ?_,fun va hva => ?_,fun va hlo hhi => ?_⟩
    · rw [hm]
      exact present_iff hext.backed hpte hva
    · have hlt : va < p.sz := Nat.lt_of_lt_of_le hva (Nat.min_le_left _ _)
      refine h.owned.byte_free (hlt.trans h.size) ?_ hext.outside
      rw [present_eq hext.backed,present_eq h.owned.backed]
      exact hext.old _ (.inl (lt_page.2 (Nat.lt_of_lt_of_le hlt hr.above)))
    · rw [hr.first] at hlo
      rw [hm] at hhi
      obtain ⟨pa,hpa,hz⟩ := hzero.filled (va / PGSIZE)
        (Nat.not_lt.1 fun hc => absurd (lt_page.1 hc) (Nat.not_lt.2 hlo)) (lt_page.2 hhi)
      rw [byte_of_pte hext.backed hpa,hz _ (Nat.mod_lt va (by decide))]
  · right
    refine ⟨rfl,h.unchanged (fun j hj => ?_) hext.backed hext.outside⟩
    by_cases hjn : j < n
    · exact hext.old j (.inl hjn)
    · rw [hzero.empty j (by omega) hj,hnone j (by omega) hj]

theorem Proc.Sound.deallocuvm (h : p.Sound L k) (hlt : newsz < p.sz) :
    ∃ k' d', deallocuvm L k p.pgdir p.sz newsz = .ok (k',d',newsz) ∧
      Resized (newsz - p.sz) k p k' { p with pgdir := d', sz := newsz } := by
  obtain ⟨n,m,hr,hn,hm,hm1,hm2⟩ := range_of_le hlt.le h.size
  obtain ⟨k',d',hde,hs⟩ := h.owned.deallocuvm hlt h.size.le hr.first hm1 hm2
  have hpte : ∀ j, j < NUSER → (d'.pte j ≠ none ↔ j < n) := by
    intro j hj
    have hle' := hr.le
    by_cases hjn : j < n
    · rw [hs.kept j (.inl hjn),h.pte hm hj]
      omega
    · by_cases hjm : j < m
      · rw [hs.gone j (by omega) hjm]
        exact iff_of_false (fun hne => hne rfl) hjn
      · rw [hs.kept j (.inr (by omega)),h.empty hm (by omega) hj]
        exact iff_of_false (fun hne => hne rfl) hjn
  refine ⟨k',d',hde,by dsimp only; omega,hlt.trans h.size,fun va hva => ?_,fun va hva => ?_,
    fun va hlo hhi => ?_⟩
  · rw [hr.first]
    exact present_iff hs.backed hpte hva
  · have hva' : va < newsz := Nat.lt_of_lt_of_le hva (Nat.min_le_right _ _)
    have hpage : va / PGSIZE < n := lt_page.2 (Nat.lt_of_lt_of_le hva' hr.above)
    have hkern : va < KERNBASE := (hva'.trans hlt).trans h.size
    have hkept : d'.present va = p.pgdir.present va := by
      rw [present_eq hs.backed,present_eq h.owned.backed,hs.kept _ (.inl hpage)]
    refine byte_congr hkept fun e he x hx => ?_
    rw [present_eq h.owned.backed] at he
    exact hs.byte h.owned hr.top (.inl hpage) (page_lt_NUSER hkern) he hx
  · exact absurd (Nat.lt_of_le_of_lt hlo hhi) (by
      rw [hm,hr.first]
      exact Nat.not_lt.2 (Nat.mul_le_mul_right _ hr.le))

/-- The requests that `growproc` meets: all, but to shrink a process to nothing or below. -/
def Fulfilled (p : Proc) (n : Int32) : Prop := 0 ≤ n.toInt ∨ p.sz = 0 ∨ 0 < p.sz + n.toInt

instance (p : Proc) (n : Int32) : Decidable (Fulfilled p n) :=
  inferInstanceAs (Decidable (_ ∨ _ ∨ _))

def onePage : Proc where
  sz := PGSIZE
  pgdir := { addr := 0x600000
             table := update (fun _ => none) 0 (some 0x601000)
             pte := update (fun _ => none) 0 (some ⟨0x602000,true,true⟩) }
  eip := 0
  esp := PGSIZE
  name := []

def noPages : Kmem where
  freelist := []
  mem _ := 0

theorem onePage_pages : onePage.pgdir.pages = {0x600000, 0x601000, 0x602000} := by
  let blank : Pgdir := ⟨0x600000,fun _ => none,fun _ => none⟩
  have htables : onePage.pgdir.tables = blank.tables + {0x601000} :=
    tables_update (by decide) rfl rfl
  have husers : onePage.pgdir.users = blank.users + {0x602000} := by
    have hset : onePage.pgdir.users =
        (blank.setEntry (0 * PGSIZE) (some ⟨0x602000,true,true⟩)).users := users_congr fun _ _ => rfl
    rw [hset]
    simpa [blank] using users_setEntry blank (n := 0) (by rw [NUSER_eq]; decide) (some ⟨0x602000,true,true⟩)
  rw [Pgdir.pages,htables,husers,tables_none (d := blank) fun _ => rfl,
    users_none (d := blank) fun _ _ => rfl]
  rfl

theorem onePage_pte (j : ℕ) : onePage.pgdir.pte j ≠ none ↔ j = 0 := by
  by_cases hj : j = 0
  · subst hj
    exact iff_of_true (some_ne_none _) rfl
  · refine iff_of_false (not_not.2 ?_) hj
    change update (fun _ => none) 0 _ j = none
    rw [Function.update_of_ne hj]

theorem onePage_backed : Backed onePage.pgdir := by
  intro j hj
  rw [(onePage_pte j).1 hj]
  exact some_ne_none _

theorem onePage_sound : onePage.Sound ⟨KERNLINK,KERNBASE⟩ noPages where
  owned := by
    refine ⟨?_,onePage_backed⟩
    rw [onePage_pages]
    refine ⟨fun pa hpa => ?_,by decide⟩
    have hpa' : pa = 0x600000 ∨ pa = 0x601000 ∨ pa = 0x602000 := by
      simpa [Kmem.free,noPages] using hpa
    rcases hpa' with rfl | rfl | rfl <;> exact ⟨by decide,by decide,by decide,by decide⟩
  size := by decide
  present va hva := present_iff (m := 1) onePage_backed
    (fun j _ => (onePage_pte j).trans Nat.lt_one_iff.symm) hva

end Xv6.Vm
