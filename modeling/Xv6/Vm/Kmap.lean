import Xv6.Vm.Dealloc
import Xv6.Vm.ExecStack

/-! # What `setupkvm` maps

The entries of the directory are those of the lines of `kmap`, and no page is mapped twice. -/
namespace Xv6.Vm
open Function (update)
open Result List

/-- The bytes of the range: `phys_end - phys_start`. -/
def Kmap.size (m : Kmap) : ℕ := (m.physEnd + 2 ^ 32 - m.physStart) % 2 ^ 32

def Kmap.Covers (m : Kmap) (va : ℕ) : Prop := m.virt ≤ va ∧ va < m.virt + m.size

def Kmap.entry (m : Kmap) (va : ℕ) : Pte := ⟨PGROUNDDOWN (m.physStart + (va - m.virt)),m.w,false⟩

/-- Whole pages of the kernel part, without a wrap. -/
structure Kmap.Whole (m : Kmap) : Prop where
  virt : m.virt % PGSIZE = 0
  size : m.size % PGSIZE = 0
  phys : m.physStart % PGSIZE = 0
  pos : 0 < m.size
  kernel : KERNBASE ≤ m.virt
  top : m.virt + m.size ≤ 2 ^ 32
  physTop : m.physStart + m.size ≤ 2 ^ 32

/-- Two lines have no address in common. -/
def Kmap.Apart (m m' : Kmap) : Prop := ∀ va, m.Covers va → ¬ m'.Covers va

/-- The entries are those of the lines `ms`. -/
def Shows (ms : List Kmap) (d : Pgdir) : Prop := ∀ n, n < 2 ^ 20 → ∀ e,
  d.pte n = some e ↔ ∃ m ∈ ms, m.Covers (n * PGSIZE) ∧ e = m.entry (n * PGSIZE)

variable {L : Layout} {k : Kmem} {d d' : Pgdir} {m : Kmap} {ms done : List Kmap} {va : ℕ}

theorem Kmap.Whole.covers_page (h : m.Whole) (n : ℕ) : m.Covers (n * PGSIZE) ↔
    m.virt / PGSIZE ≤ n ∧ n ≤ m.virt / PGSIZE + m.size / PGSIZE - 1 := by
  have h1 := h.virt
  have h2 := h.size
  have h3 := h.pos
  unfold Kmap.Covers PGSIZE at *
  omega

theorem Kmap.Whole.covers_rounddown (h : m.Whole) (va : ℕ) :
    m.Covers va ↔ m.Covers (va / PGSIZE * PGSIZE) := by
  have h1 := h.virt
  have h2 := h.size
  unfold Kmap.Covers PGSIZE at *
  omega

theorem Kmap.Whole.entry_rounddown (h : m.Whole) (hc : m.Covers va) :
    m.entry (va / PGSIZE * PGSIZE) = m.entry va := by
  have h1 := h.virt
  have h2 := h.phys
  have h3 := hc.1
  have haddr : PGROUNDDOWN (m.physStart + (va / PGSIZE * PGSIZE - m.virt)) =
      PGROUNDDOWN (m.physStart + (va - m.virt)) := by
    unfold PGROUNDDOWN PGSIZE at *
    omega
  rw [Kmap.entry,Kmap.entry,haddr]

/-- The loop of `mappages` for a line of `kmap`. -/
theorem Kmap.Whole.mappages_eq (h : m.Whole) (k : Kmem) (d : Pgdir) :
    mappages k d m.virt m.size m.physStart m.w false =
      mapLoop ((m.virt / PGSIZE + m.size / PGSIZE - 1) * PGSIZE) m.w false (2 ^ 20) k d
        (m.virt / PGSIZE * PGSIZE) m.physStart := by
  have h1 := h.virt
  have h2 := h.size
  have h3 := h.pos
  have h4 := h.top
  have h5 := h.kernel
  have hvirt : m.virt = m.virt / PGSIZE * PGSIZE := by
    unfold PGSIZE at *
    omega
  have hsize : m.size = m.size / PGSIZE * PGSIZE % 2 ^ 32 := by
    unfold PGSIZE KERNBASE at *
    omega
  have heq : mappages k d (m.virt / PGSIZE * PGSIZE) (m.size / PGSIZE * PGSIZE % 2 ^ 32) m.physStart
      m.w false = mapLoop ((m.virt / PGSIZE + m.size / PGSIZE - 1) * PGSIZE) m.w false (2 ^ 20) k d
        (m.virt / PGSIZE * PGSIZE) m.physStart :=
    Vm.mappages_eq (m.size / PGSIZE) (by unfold PGSIZE at *; omega) (by unfold PGSIZE at *; omega)
  rw [← hvirt]
  rwa [← hvirt,← hsize] at heq

theorem Kmap.Whole.last_lt (h : m.Whole) : m.virt / PGSIZE ≤ m.virt / PGSIZE + m.size / PGSIZE - 1 ∧
    m.virt / PGSIZE + m.size / PGSIZE - 1 < 2 ^ 20 := by
  have h1 := h.virt
  have h2 := h.size
  have h3 := h.pos
  have h4 := h.top
  unfold PGSIZE at *
  omega

/-- One line of `kmap` over a directory that has none of its pages. -/
theorem mappages_line {E : Trap → Prop} (h : m.Whole) (hb : Backed d) (k : Kmem)
    (hnone : ∀ n, m.Covers (n * PGSIZE) → d.pte n = none) :
    Sat E (fun r => Mapping m.w false (m.virt / PGSIZE) (m.virt / PGSIZE + m.size / PGSIZE - 1)
        m.physStart k d r.1 r.2.1 r.2.2) (mappages k d m.virt m.size m.physStart m.w false) := by
  obtain ⟨hle,hlt⟩ := h.last_lt
  rw [h.mappages_eq]
  exact mapLoop_spec k _ hb hle hlt (Nat.lt_of_le_of_lt (Nat.sub_le _ _) hlt)
    fun n hn hn' hne => absurd (hnone n ((h.covers_page n).2 ⟨hn,hn'⟩)) hne

theorem Shows.line {k' : Kmem} (h : Shows done d) (hm : m.Whole)
    (hmap : Mapping m.w false (m.virt / PGSIZE) (m.virt / PGSIZE + m.size / PGSIZE - 1)
      m.physStart k d k' d' true) (hapart : ∀ m' ∈ done, m'.Apart m) : Shows (done ++ [m]) d' := by
  intro n hn e
  by_cases hc : m.Covers (n * PGSIZE)
  · obtain ⟨hlo,hhi⟩ := (hm.covers_page n).1 hc
    have hentry : m.entry (n * PGSIZE) =
        ⟨(m.physStart + (n - m.virt / PGSIZE) * PGSIZE) % 2 ^ 32,m.w,false⟩ := by
      have h1 := hm.virt
      have h2 := hm.phys
      have h3 := hm.physTop
      have h4 := hc.1
      have h5 := hc.2
      rw [Kmap.entry]
      congr 1
      unfold PGROUNDDOWN PGSIZE at *
      omega
    obtain ⟨a,ha,haddr⟩ := hmap.mapped rfl n hlo hhi
    rw [ha,haddr (Nat.lt_of_lt_of_le (Nat.lt_add_of_pos_right hm.pos) hm.physTop),← hentry]
    constructor
    · intro he
      exact ⟨m,by simp,hc,(Option.some.inj he).symm⟩
    · rintro ⟨m',hm',hc',rfl⟩
      rcases mem_append.1 hm' with hdone | hlast
      · exact absurd hc (hapart m' hdone _ hc')
      · rw [mem_singleton.1 hlast]
  · have hout : n < m.virt / PGSIZE ∨ m.virt / PGSIZE + m.size / PGSIZE - 1 < n := by
      by_contra hin
      exact hc ((hm.covers_page n).2 (by omega))
    rw [hmap.pte n hout,h n hn e]
    constructor
    · rintro ⟨m',hm',hc',he⟩
      exact ⟨m',mem_append_left _ hm',hc',he⟩
    · rintro ⟨m',hm',hc',he⟩
      rcases mem_append.1 hm' with hdone | hlast
      · exact ⟨m',hdone,hc',he⟩
      · exact absurd (mem_singleton.1 hlast ▸ hc') hc

/-- No page is mapped twice, and the loop leaves the entries of all the lines. -/
theorem kmapLoop_shows (hwhole : ∀ m ∈ ms, m.Whole) (hapart : (done ++ ms).Pairwise Kmap.Apart)
    (hb : Backed d) (h : Shows done d) (k : Kmem) :
    Sat (· = .kfree) (fun r => ∀ d' ∈ r.2, Backed d' ∧ Shows (done ++ ms) d')
      (kmapLoop L ms k d) := by
  induction ms generalizing done k d with
  | nil =>
    refine sat_ok.2 fun d' hd' => ?_
    rw [← Option.some.inj hd',append_nil]
    exact ⟨hb,h⟩
  | cons m ms ih =>
    have hm := hwhole m (mem_cons_self ..)
    have hdone : ∀ m' ∈ done, m'.Apart m := fun m' hm' =>
      (pairwise_append.1 hapart).2.2 m' hm' m (mem_cons_self ..)
    have hnone : ∀ n, n < 2 ^ 20 → m.Covers (n * PGSIZE) → d.pte n = none := by
      intro n hn hc
      by_contra hne
      obtain ⟨e,he⟩ := Option.ne_none_iff_exists'.1 hne
      obtain ⟨m',hm',hc',-⟩ := (h n hn e).1 he
      exact hdone m' hm' _ hc' hc
    have hline := mappages_line (E := (· = .kfree)) hm hb k fun n hc => hnone n (by
      have h1 := hm.top
      have h2 := hc.2
      unfold PGSIZE at *
      omega) hc
    refine hline.bind fun r hr => ?_
    split
    next hdone' =>
      rw [hdone'] at hr
      have happ : done ++ m :: ms = (done ++ [m]) ++ ms := by simp
      rw [happ] at hapart ⊢
      exact ih (fun m' hm' => hwhole m' (mem_cons_of_mem _ hm')) hapart hr.backed
        (h.line hm hr hdone) r.1
    next => exact (freevm_sat (E := (· = .kfree)) rfl ..).bind fun k _ => sat_pure.2 nofun

/-- `data` is a page between the text and the end of the physical memory. -/
structure Layout.DataOk (L : Layout) : Prop where
  aligned : L.data % PGSIZE = 0
  above : KERNLINK < L.data
  below : L.data < KERNBASE + PHYSTOP

theorem kmap_whole (h : L.DataOk) : ∀ m ∈ kmap L, m.Whole := by
  obtain ⟨h1,h2,h3⟩ := h
  unfold KERNLINK KERNBASE EXTMEM PHYSTOP PGSIZE at *
  simp only [kmap,mem_cons,not_mem_nil,or_false,forall_eq_or_imp,forall_eq]
  refine ⟨?_,?_,?_,?_⟩ <;> constructor <;>
    simp only [Kmap.size,KERNLINK,KERNBASE,EXTMEM,PHYSTOP,DEVSPACE,PGSIZE] <;> omega

theorem kmap_apart (h : L.DataOk) : (kmap L).Pairwise Kmap.Apart := by
  obtain ⟨h1,h2,h3⟩ := h
  unfold KERNLINK KERNBASE EXTMEM PHYSTOP PGSIZE at *
  simp only [kmap,pairwise_cons,mem_cons,not_mem_nil,or_false,
    forall_eq_or_imp,forall_eq,Kmap.Apart,Kmap.Covers,Kmap.size,KERNLINK,KERNBASE,EXTMEM,
    PHYSTOP,DEVSPACE]
  refine ⟨⟨?_,?_,?_⟩,⟨?_,?_⟩,?_,by simp,.nil⟩ <;> intro va <;> omega

theorem shows_nil (pgdir : ℕ) : Shows [] { addr := pgdir, table := fun _ => none, pte := fun _ => none } := by
  intro n _ e
  simp

theorem setupkvm_shows (h : L.DataOk) (k : Kmem) :
    Sat (· = .kfree) (fun r => ∀ d ∈ r.2, Backed d ∧ Shows (kmap L) d) (setupkvm L k) := by
  unfold setupkvm
  split
  next => exact sat_ok.2 nofun
  next k pgdir _ =>
    exact kmapLoop_shows (kmap_whole h) (kmap_apart h) (fun n hn => absurd rfl hn) (shows_nil pgdir) _

theorem Shows.present (h : Shows ms d) (hb : Backed d) (hwhole : ∀ m ∈ ms, m.Whole)
    (hva : va < 2 ^ 32) (e : Pte) :
    d.present va = some e ↔ ∃ m ∈ ms, m.Covers va ∧ e = m.entry va := by
  have hpage : d.present va = d.pte (va / PGSIZE) := by
    rw [← present_page hb,Pgdir.present,Pgdir.present,Pgdir.walk,Pgdir.walk,PDX_page,PDX,
      entry_page,Pgdir.entry]
  rw [hpage,h _ (by unfold PGSIZE; omega) e]
  refine exists_congr fun m => and_congr_right fun hm => ?_
  rw [← (hwhole m hm).covers_rounddown]
  refine and_congr_right fun hc => ?_
  rw [(hwhole m hm).entry_rounddown hc]

/-- `setupkvm` maps the kernel as `kmap` says, and nothing for users. -/
theorem setupkvm_maps_kmap (k : Kmem) (h : L.DataOk) : setupkvm L k ≠ .error .remap ∧
    ∀ k' d, setupkvm L k = .ok (k',some d) →
      (∀ va, va < 2 ^ 32 → ∀ e, d.present va = some e ↔ ∃ m ∈ kmap L, m.Covers va ∧ e = m.entry va) ∧
      ∀ va, va < KERNBASE → d.present va = none := by
  have hsat := setupkvm_shows h k
  refine ⟨fun hc => Trap.noConfusion (hsat.error hc),fun k' d hd => ?_⟩
  obtain ⟨hb,hshows⟩ := hsat.ok hd d rfl
  have hpresent : ∀ va, va < 2 ^ 32 → ∀ e,
      d.present va = some e ↔ ∃ m ∈ kmap L, m.Covers va ∧ e = m.entry va :=
    fun va hva => hshows.present hb (kmap_whole h) hva
  refine ⟨hpresent,fun va hva => ?_⟩
  by_contra hne
  obtain ⟨e,he⟩ := Option.ne_none_iff_exists'.1 hne
  have hlt : va < 2 ^ 32 := Nat.lt_trans hva (by decide)
  obtain ⟨m,hm,hc,-⟩ := (hpresent va hlt e).1 he
  exact absurd hva (Nat.not_lt.2 ((kmap_whole h m hm).kernel.trans hc.1))

/-- A directory from 256 free pages, with the data behind the first page of the text. -/
theorem setupkvm_maps_kmap_small : ∃ k' d, setupkvm ⟨KERNLINK + PGSIZE,KERNBASE⟩
      ⟨(List.range 0x100).map fun i => 0x400000 + i * PGSIZE,fun _ => 0⟩ = .ok (k',some d) ∧
      d.present DEVSPACE = some ⟨DEVSPACE,true,false⟩ ∧ d.present 0 = none := by
  have hdata : Layout.DataOk ⟨KERNLINK + PGSIZE,KERNBASE⟩ := ⟨by decide,by decide,by decide⟩
  obtain ⟨k',d,hd,-⟩ := setupkvm_total (L := ⟨KERNLINK + PGSIZE,KERNBASE⟩) (x := 0x80101)
    (k := ⟨(List.range 0x100).map fun i => 0x400000 + i * PGSIZE,fun _ => 0⟩)
    (by decide) (by decide) (by decide) (by simp)
  obtain ⟨hmaps,hnone⟩ := (setupkvm_maps_kmap _ hdata).2 k' d hd
  refine ⟨k',d,hd,(hmaps _ (by decide) _).2 ⟨⟨DEVSPACE,DEVSPACE,0,true⟩,by simp [kmap],?_,rfl⟩,
    hnone 0 (by decide)⟩
  exact ⟨Nat.le_refl _,by decide⟩

end Xv6.Vm
