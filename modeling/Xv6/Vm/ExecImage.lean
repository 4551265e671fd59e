import Xv6.Vm.View

/-! # The memory image that `exec` builds

The segments are loaded in the order of the program headers, over pages of zeros, and a guard page and
the stack page follow. -/
namespace Xv6.Vm
open Function Proghdr
open Patch (patch patch_in patch_out)
open Result List Option

/-- The segment has the address in its part of the file. -/
def Proghdr.Loads (ph : Proghdr) (va : ℕ) : Prop :=
  ph.type = ELF_PROG_LOAD ∧ ph.vaddr ≤ va ∧ va < ph.vaddr + ph.filesz

instance (ph : Proghdr) (va : ℕ) : Decidable (ph.Loads va) := inferInstanceAs (Decidable (_ ∧ _ ∧ _))

def progHeaders (file : List UInt8) (phoff phnum : ℕ) : List Proghdr :=
  (List.range phnum).map fun i =>
    ofBytes ((file.drop ((phoff + i * size) % 2 ^ 32)).take size)

/-- The byte of the last segment that has the address, or 0. -/
def imageByte (file : List UInt8) (phs : List Proghdr) (va : ℕ) : UInt8 :=
  match phs.reverse.find? fun ph => ph.Loads va with
  | none => 0
  | some ph => file.getD (ph.off + (va - ph.vaddr)) 0

/-- The memory of a program of `n` pages, with the bytes `g`. -/
structure Program (k₀ : Kmem) (n : ℕ) (g : ℕ → UInt8) (k : Kmem) (d : Pgdir) : Prop where
  made : Made k₀ k d
  mapped : ∀ j, j < n → ∃ pa, d.pte j = some ⟨pa,true,true⟩
  empty : ∀ j, n ≤ j → j < NUSER → d.pte j = none
  kernel : ∀ j, NUSER ≤ j → j < 2 ^ 20 → ∀ e, d.pte j = some e → e.u = false
  bytes : ∀ va, va < n * PGSIZE → d.byte k va = some (g va)
  beyond : ∀ va, n * PGSIZE ≤ va → g va = 0

variable {L : Layout} {k k₀ k' : Kmem} {d d' : Pgdir} {file : List UInt8} {g : ℕ → UInt8}
  {ph : Proghdr} {phs done : List Proghdr} {n m sz newsz va : ℕ}

theorem imageByte_snoc : imageByte file (phs ++ [ph]) va =
    if ph.Loads va then file.getD (ph.off + (va - ph.vaddr)) 0 else imageByte file phs va := by
  rw [imageByte,reverse_append,reverse_singleton,singleton_append,List.find?_cons]
  by_cases h : ph.Loads va
  · simp [h]
  · simp [h,imageByte]

theorem patch_segment (hread : ph.filesz = 0 ∨ ph.off + ph.filesz ≤ file.length)
    (hload : ph.type = ELF_PROG_LOAD) {f : ℕ → Option UInt8} (hf : f va = some (imageByte file phs va)) :
    patch f ph.vaddr (((file.drop ph.off).take ph.filesz).map some) va =
      some (imageByte file (phs ++ [ph]) va) := by
  have hlen : (((file.drop ph.off).take ph.filesz).map some).length = ph.filesz := by
    rw [length_map,length_take,length_drop]
    omega
  rw [imageByte_snoc]
  by_cases hin : ph.Loads va
  · obtain ⟨-,hlo,hhi⟩ := hin
    obtain ⟨i,rfl⟩ := Nat.exists_eq_add_of_le hlo
    rw [if_pos ⟨hload,hlo,hhi⟩,patch_in (by omega),getElem_map,getElem_take,
      getElem_drop,Nat.add_sub_cancel_left,getD_eq_getElem?_getD,
      List.getElem?_eq_getElem,getD_some]
  · rw [if_neg hin,patch_out,hf]
    rw [hlen]
    by_contra hc
    exact hin ⟨hload,by omega,by omega⟩

theorem Made.extended (h : Made k₀ k d) (he : Extended n k d k' d') : Made k₀ k' d' where
  backed := he.backed
  pages := he.pages.trans h.pages
  outside := h.outside.trans (he.outside.mono fun _ hpa => h.free_sub hpa)

theorem Program.extended (h : Program k₀ n g k d) (hk0 : Distinct L k₀.free) (hnm : n ≤ m)
    (hm : m ≤ NUSER) (he : Extended n k d k' d') (hz : Zeroed n m k' d') : Program k₀ m g k' d' where
  made := h.made.extended he
  mapped j hj := by
    by_cases hjn : j < n
    · rw [he.old j (.inl hjn)]
      exact h.mapped j hjn
    · obtain ⟨pa,hpa,-⟩ := hz.filled j (by omega) hj
      exact ⟨pa,hpa⟩
  empty := hz.empty
  kernel j hj hj' e hje := h.kernel j hj hj' e (he.old j (.inr hj) ▸ hje)
  bytes va hva := by
    have hkern : va < KERNBASE := by
      rw [NUSER_eq] at hm
      unfold KERNBASE PGSIZE at *
      omega
    by_cases hlt : va < n * PGSIZE
    · rw [← h.bytes va hlt]
      refine (h.made.owned hk0).byte_free hkern ?_ he.outside
      rw [present_eq he.backed,present_eq h.made.backed,he.old _ (.inl (lt_page.2 hlt))]
    · obtain ⟨pa,hpa,hzero⟩ := hz.filled (va / PGSIZE)
        (Nat.not_lt.1 fun hc => hlt (lt_page.1 hc)) (lt_page.2 hva)
      rw [byte_of_pte he.backed hpa,hzero _ (Nat.mod_lt va (by decide)),h.beyond va (by omega)]
  beyond va hva := h.beyond va ((Nat.mul_le_mul_right _ hnm).trans hva)

theorem Program.allocuvm {E : Trap → Prop} (h : Program k₀ n g k d) (hk0 : Distinct L k₀.free)
    (hsz : sz < KERNBASE) (hn : PGROUNDUP sz = n * PGSIZE) :
    Sat E (fun r => Made k₀ r.1 r.2.1 ∧ (r.2.2 ≠ 0 → newsz ≤ r.2.2 ∧ r.2.2 < KERNBASE ∧
        (r.2.2 = newsz ∨ r.2.2 = sz) ∧
        ∃ m, PGROUNDUP r.2.2 = m * PGSIZE ∧ Program k₀ m g r.1 r.2.1))
      (allocuvm L k d sz newsz) := by
  by_cases hnew : newsz < KERNBASE
  · by_cases hle : sz ≤ newsz
    · obtain ⟨n',m,hr,-,hm,-,-⟩ := range_of_le hle hnew
      have hnn : n' = n := Nat.eq_of_mul_eq_mul_right (by decide) (hr.first.symm.trans hn)
      subst hnn
      refine (allocuvm_allocated hr hnew hle (h.made.owned hk0) h.empty).mono ?_
      rintro ⟨k',d',sz'⟩ ⟨hext,hz⟩
      refine ⟨h.made.extended hext,fun hne => ?_⟩
      obtain ⟨heq,hzero⟩ := hz.resolve_right fun hc => hne hc.1
      subst heq
      exact ⟨Nat.le_refl _,hnew,.inl rfl,m,hm,h.extended hk0 hr.le hr.top hext hzero⟩
    · rw [Vm.allocuvm,if_neg (Nat.not_le.2 hnew),if_pos (Nat.not_le.1 hle)]
      exact sat_ok.2 ⟨h.made,fun _ => ⟨(Nat.not_le.1 hle).le,hsz,.inr rfl,n,hn,h⟩⟩
  · rw [Vm.allocuvm,if_pos (Nat.not_lt.1 hnew)]
    exact sat_ok.2 ⟨h.made,fun hne => absurd rfl hne⟩

/-- The pages up to the size `sz` hold the segments `phs`. -/
structure Loaded (file : List UInt8) (k₀ : Kmem) (phs : List Proghdr) (k : Kmem) (d : Pgdir) (sz : ℕ) :
    Prop where
  below : sz < KERNBASE
  program : ∃ n, PGROUNDUP sz = n * PGSIZE ∧ Program k₀ n (imageByte file phs) k d

/-- The fields of a header are words. -/
structure Proghdr.Words (ph : Proghdr) : Prop where
  off : ph.off < 2 ^ 32
  vaddr : ph.vaddr < 2 ^ 32
  memsz : ph.memsz < 2 ^ 32

/-- What a step of the loading leaves: a directory to free, or the memory so far. -/
def LoadedOr (file : List UInt8) (k₀ : Kmem) (phs : List Proghdr) (r : Kmem × Pgdir × Option ℕ) :
    Prop :=
  Made k₀ r.1 r.2.1 ∧ ∀ sz ∈ r.2.2, Loaded file k₀ phs r.1 r.2.1 sz

theorem loadedOr_none (h : Made k₀ k d) (phs : List Proghdr) : LoadedOr file k₀ phs (k,d,none) :=
  ⟨h,nofun⟩

theorem Loaded.made (h : Loaded file k₀ phs k d sz) : Made k₀ k d :=
  let ⟨_,_,hp⟩ := h.program
  hp.made

theorem Program.segment (h : Program k₀ n (imageByte file done) k d) (hload : ph.type = ELF_PROG_LOAD)
    (hread : ph.filesz = 0 ∨ ph.off + ph.filesz ≤ file.length) (hn : n ≤ NUSER)
    (htop : ph.vaddr + ph.filesz ≤ n * PGSIZE) (hmade : Made k₀ k' d)
    (hbytes : ∀ va, va < KERNBASE → d.byte k' va =
      patch (d.byte k) ph.vaddr (((file.drop ph.off).take ph.filesz).map some) va) :
    Program k₀ n (imageByte file (done ++ [ph])) k' d where
  made := hmade
  mapped := h.mapped
  empty := h.empty
  kernel := h.kernel
  bytes va hva := by
    rw [hbytes,patch_segment hread hload (h.bytes va hva)]
    rw [NUSER_eq] at hn
    unfold KERNBASE PGSIZE at *
    omega
  beyond va hva := by
    rw [imageByte_snoc,if_neg fun hin => absurd hin.2.2 (by omega)]
    exact h.beyond va hva

theorem loadSegment_loaded {E : Trap → Prop} (hk0 : Distinct L k₀.free) (hfile : file.length < 2 ^ 32)
    (hw : ph.Words) (h : Loaded file k₀ done k d sz) :
    Sat E (LoadedOr file k₀ (done ++ [ph])) (loadSegment L file k d sz ph) := by
  have hmade := h.made
  obtain ⟨hbelow,n,hn,hp⟩ := h
  unfold loadSegment
  split
  next hskip =>
    have hsame : imageByte file (done ++ [ph]) = imageByte file done := by
      funext va
      rw [imageByte_snoc,if_neg fun hin => hskip hin.1]
    refine sat_ok.2 ⟨hmade,fun sz' hsz' => ?_⟩
    rw [← Option.some.inj hsz']
    exact ⟨hbelow,n,hn,hsame ▸ hp⟩
  next hload =>
    split
    next => exact sat_ok.2 (loadedOr_none hmade _)
    next hfit =>
      split
      next => exact sat_ok.2 (loadedOr_none hmade _)
      next hwrap =>
        have h1 := hw.vaddr
        have h2 := hw.memsz
        have hsum : (ph.vaddr + ph.memsz) % 2 ^ 32 = ph.vaddr + ph.memsz := by omega
        rw [hsum]
        refine (hp.allocuvm hk0 hbelow hn).bind fun r hr => ?_
        split
        next => exact sat_pure.2 (loadedOr_none hr.1 _)
        next hne =>
          obtain ⟨hle,hlt,-,m,hm,hp'⟩ := hr.2 hne
          obtain ⟨hm1,-,hm2⟩ := PGROUNDUP_bounds hlt.le hm
          split
          next => exact sat_pure.2 (loadedOr_none hr.1 _)
          next halign =>
            have hv : ph.vaddr = ph.vaddr / PGSIZE * PGSIZE := by
              unfold PGSIZE at *
              omega
            have hpte : ∀ j, ph.vaddr / PGSIZE ≤ j →
                j * PGSIZE < ph.vaddr / PGSIZE * PGSIZE + ph.filesz →
                j < NUSER ∧ r.2.1.pte j ≠ none := by
              intro j _ hj
              rw [← hv] at hj
              have hjm : j < m := Nat.lt_of_mul_lt_mul_right (a := PGSIZE) (by omega)
              obtain ⟨pa,hpa⟩ := hp'.mapped j hjm
              exact ⟨by omega,hpa ▸ some_ne_none _⟩
            have hload' := loaduvm_spec (E := E) hk0 hfile hw.off hpte hr.1
            rw [← hv] at hload'
            refine hload'.bind fun l hl => sat_pure.2 ⟨hl.1,fun sz' hsz' => ?_⟩
            split at hsz'
            next hdone =>
              rw [← Option.some.inj hsz']
              obtain ⟨hread,hbytes⟩ := hl.2 hdone
              exact ⟨hlt,m,hm,hp'.segment (not_ne_iff.1 hload) hread hm2 (by omega) hl.1 hbytes⟩
            next => cases hsz'

theorem leNat_lt (b : List UInt8) (off n : ℕ) : leNat b off n < 256 ^ n := by
  have hfold : ∀ l : List UInt8, l.foldr (fun c v => c.toNat + 256 * v) 0 < 256 ^ l.length := by
    intro l
    induction l with
    | nil => exact Nat.one_pos
    | cons c l ih =>
      have hc := c.toNat_lt
      rw [foldr_cons,length_cons,Nat.pow_succ]
      omega
  refine Nat.lt_of_lt_of_le (hfold _) (Nat.pow_le_pow_right (by decide) ?_)
  rw [length_take]
  exact Nat.min_le_left _ _

theorem ofBytes_words (b : List UInt8) : (ofBytes b).Words :=
  ⟨leNat_lt b 4 4,leNat_lt b 8 4,leNat_lt b 20 4⟩

theorem readRecord_some {off n : ℕ} {b : List UInt8} (h : readRecord file off n = some b) :
    b = (file.drop off).take n := by
  obtain ⟨hread,-⟩ := filter_eq_some_iff.1 h
  unfold readi at hread
  split at hread
  next => cases hread
  next => exact (Option.some.inj hread).symm

theorem progHeaders_succ (file : List UInt8) (phoff i : ℕ) : progHeaders file phoff (i + 1) =
    progHeaders file phoff i ++
      [ofBytes ((file.drop ((phoff + i * size) % 2 ^ 32)).take size)] := by
  rw [progHeaders,range_succ,map_append]
  rfl

/-- The loop over the program headers, from the header `i` on. -/
theorem loadProgram_loaded {E : Trap → Prop} (hk0 : Distinct L k₀.free) (hfile : file.length < 2 ^ 32)
    (phoff c i : ℕ) (h : Loaded file k₀ (progHeaders file phoff i) k d sz) :
    Sat E (LoadedOr file k₀ (progHeaders file phoff (i + c)))
      (loadProgram L file c ((phoff + i * size) % 2 ^ 32) k d sz) := by
  induction c generalizing i k d sz with
  | zero =>
    refine sat_ok.2 ⟨h.made,fun sz' hsz' => ?_⟩
    rw [← Option.some.inj hsz']
    exact h
  | succ c ih =>
    unfold loadProgram
    split
    next => exact sat_ok.2 (loadedOr_none h.made _)
    next b hb =>
      have hseg := loadSegment_loaded (E := E) hk0 hfile (ofBytes_words b) h
      rw [readRecord_some hb,← progHeaders_succ,← readRecord_some hb] at hseg
      refine hseg.bind fun r hr => ?_
      obtain ⟨k1,d1,o⟩ := r
      cases o with
      | none => exact sat_pure.2 (loadedOr_none hr.1 _)
      | some sz1 =>
        have hoff : ((phoff + i * size) % 2 ^ 32 + size) % 2 ^ 32 =
            (phoff + (i + 1) * size) % 2 ^ 32 := by
          rw [Nat.mod_add_mod,Nat.add_one_mul,Nat.add_assoc]
        rw [hoff,← Nat.add_assoc,Nat.add_right_comm]
        exact ih (i + 1) (hr.2 sz1 rfl)

/-- A program of `n` pages, the guard page and the stack page. -/
structure Image (k₀ : Kmem) (n : ℕ) (g : ℕ → UInt8) (k : Kmem) (d : Pgdir) : Prop where
  made : Made k₀ k d
  top : (n + 2) * PGSIZE < KERNBASE
  mapped : ∀ j, j < n + 2 → ∃ pa, d.pte j = some ⟨pa,true,decide (j ≠ n)⟩
  empty : ∀ j, n + 2 ≤ j → j < NUSER → d.pte j = none
  kernel : ∀ j, NUSER ≤ j → j < 2 ^ 20 → ∀ e, d.pte j = some e → e.u = false
  bytes : ∀ va, va < n * PGSIZE → d.byte k va = some (g va)

/-- The flag of a page is cleared. -/
theorem Made.clearpteu {e : Pte} (h : Made k₀ k d) (he : d.pte n = some e) :
    ∃ d', clearpteu d (n * PGSIZE) = .ok d' ∧ Made k₀ k d' ∧
      d'.pte = update d.pte n (some ⟨e.addr,e.w,false⟩) := by
  have hw : d.walk (n * PGSIZE) = true := by
    rw [walk_iff,PDX_page]
    exact h.backed n (he ▸ some_ne_none e)
  refine ⟨d.setEntry (n * PGSIZE) (some ⟨e.addr,e.w,false⟩),?_,⟨h.backed.setEntry hw _,?_,h.outside⟩,
    by rw [setEntry_page]⟩
  · rw [Vm.clearpteu,if_pos hw,entry_page,he]
    rfl
  · have htables : (d.setEntry (n * PGSIZE) (some ⟨e.addr,e.w,false⟩)).tables = d.tables :=
      tables_congr rfl
    have husers : (d.setEntry (n * PGSIZE) (some ⟨e.addr,e.w,false⟩)).users = d.users := by
      refine users_congr fun j _ => ?_
      rw [setEntry_page]
      dsimp only
      by_cases hj : j = n
      · rw [hj,he,Function.update_self]
        rfl
      · rw [update_of_ne hj]
    rw [← h.pages,Pgdir.pages,Pgdir.pages,htables,husers]
    rfl

theorem userStack_image {E : Trap → Prop} (hk0 : Distinct L k₀.free) (hp : Program k₀ n g k d)
    (hsz : sz < KERNBASE) (hn : PGROUNDUP sz = n * PGSIZE) :
    Sat E (fun r => Made k₀ r.1 r.2.1 ∧ ∀ sz' ∈ r.2.2, sz' = (n + 2) * PGSIZE ∧ Image k₀ n g r.1 r.2.1)
      (userStack L k d sz) := by
  obtain ⟨-,-,htop⟩ := PGROUNDUP_bounds hsz.le hn
  have hround : PGROUNDUP (n * PGSIZE) = n * PGSIZE := by
    rw [NUSER_eq] at htop
    unfold PGROUNDUP PGSIZE
    omega
  have hnew : (n * PGSIZE + 2 * PGSIZE) % 2 ^ 32 = (n + 2) * PGSIZE := by
    rw [NUSER_eq] at htop
    unfold PGSIZE
    omega
  rw [userStack,hn,hnew]
  by_cases hlt : (n + 2) * PGSIZE < KERNBASE
  · have hnlt : n * PGSIZE < KERNBASE :=
      Nat.lt_of_le_of_lt (Nat.mul_le_mul_right _ (Nat.le_add_right n 2)) hlt
    refine (hp.allocuvm hk0 hnlt hround).bind fun r hr => ?_
    split
    next => exact sat_pure.2 ⟨hr.1,by rintro _ ⟨⟩⟩
    next hne =>
      obtain ⟨hle,hlt',hor,m,hm,hp'⟩ := hr.2 hne
      have hsz' : r.2.2 = (n + 2) * PGSIZE := by
        refine hor.resolve_right fun heq => ?_
        rw [heq] at hle
        have := Nat.le_of_mul_le_mul_right hle (by decide)
        omega
      have hm' : m = n + 2 := by
        obtain ⟨h1,h2,-⟩ := PGROUNDUP_bounds hlt'.le hm
        rw [hsz'] at h1 h2
        unfold PGSIZE at *
        omega
      subst hm'
      have hnu : n < NUSER := by
        rw [NUSER_eq]
        unfold KERNBASE PGSIZE at hnlt
        omega
      obtain ⟨pa,hpa⟩ := hp'.mapped n (by omega)
      obtain ⟨d',hclear,hmade,hpte⟩ := hr.1.clearpteu hpa
      have hguard : r.2.2 - 2 * PGSIZE = n * PGSIZE := by
        rw [hsz',Nat.add_mul,Nat.add_sub_cancel]
      rw [hguard,hclear]
      refine sat_ok.2 ⟨hmade,fun sz' heq => ?_⟩
      rw [← Option.some.inj heq]
      refine ⟨hsz',hmade,hlt,fun j hj => ?_,fun j hj hj' => ?_,fun j hj hj' e he => ?_,
        fun va hva => ?_⟩
      · by_cases hjn : j = n
        · exact ⟨pa,by simp [hpte,hjn]⟩
        · obtain ⟨pa',hpa'⟩ := hp'.mapped j hj
          exact ⟨pa',by simp [hpte,hjn,hpa']⟩
      · rw [hpte,update_of_ne (by omega)]
        exact hp'.empty j hj hj'
      · rw [hpte,update_of_ne (by omega)] at he
        exact hp'.kernel j hj hj' e he
      · have hva' : va < (n + 2) * PGSIZE :=
          Nat.lt_of_lt_of_le hva (Nat.mul_le_mul_right _ (Nat.le_add_right n 2))
        rw [← hp'.bytes va hva']
        refine byte_congr ?_ fun _ _ _ _ => rfl
        have hpage : va / PGSIZE < n := lt_page.2 hva
        rw [present_eq hmade.backed,present_eq hr.1.backed,hpte,update_of_ne (by omega)]
  · rw [allocuvm,if_pos (Nat.not_lt.1 hlt)]
    exact sat_ok.2 ⟨hp.made,by rintro _ ⟨⟩⟩

theorem Made.loaded (h : Made k₀ k d) (hshows : Shows (kmap L) d) (hL : L.DataOk) :
    Loaded file k₀ [] k d 0 := by
  refine ⟨by decide,0,by decide,h,nofun,fun j _ hj => hshows.user hj hL,fun j _ hj e he => ?_,
    fun va hva => absurd hva (by omega),fun _ _ => rfl⟩
  obtain ⟨m,-,-,rfl⟩ := (hshows j hj e).1 he
  rfl

/-- The memory of the program, or a directory to free. -/
theorem loadImage_image {E : Trap → Prop} {elf : Elfhdr} (hk0 : Distinct L k₀.free)
    (hfile : file.length < 2 ^ 32) (hphoff : elf.phoff < 2 ^ 32) (h : Loaded file k₀ [] k d 0) :
    Sat E (fun r => Made k₀ r.1 r.2.1 ∧ ∀ sz ∈ r.2.2, ∃ n, sz = (n + 2) * PGSIZE ∧
        Image k₀ n (imageByte file (progHeaders file elf.phoff elf.phnum)) r.1 r.2.1)
      (loadImage L file elf k d) := by
  have hprog := loadProgram_loaded (E := E) hk0 hfile elf.phoff elf.phnum 0 h
  rw [Nat.zero_mul,Nat.add_zero,Nat.mod_eq_of_lt hphoff,Nat.zero_add] at hprog
  refine hprog.bind fun r hr => ?_
  obtain ⟨k1,d1,o⟩ := r
  cases o with
  | none => exact sat_pure.2 ⟨hr.1,nofun⟩
  | some sz =>
    obtain ⟨hsz,n,hn,hp⟩ := hr.2 sz rfl
    exact (userStack_image hk0 hp hsz hn).mono fun r hr => ⟨hr.1,fun sz hsz => ⟨n,hr.2 sz hsz⟩⟩

/-- The image of the file, or no page is taken. -/
theorem image_built {E : Trap → Prop} (hL : L.DataOk) (hk : Distinct L k.free)
    (hfile : file.length < 2 ^ 32) :
    Sat E (fun r => (r.2 = none → Undone k r.1) ∧ ∀ i ∈ r.2, ∃ n, i.2.2 = (n + 2) * PGSIZE ∧
        i.1 = Elfhdr.ofBytes (file.take Elfhdr.size) ∧
        Image k n (imageByte file (progHeaders file i.1.phoff i.1.phnum)) r.1 i.2.1)
      (image L k file) := by
  unfold image
  split
  next => exact sat_ok.2 ⟨fun _ => .refl k,nofun⟩
  next b hb =>
    dsimp only
    split
    next => exact sat_ok.2 ⟨fun _ => .refl k,nofun⟩
    next =>
      refine (setupkvm_made hL hk).bind fun r hr => ?_
      obtain ⟨k1,o⟩ := r
      cases o with
      | none => exact sat_pure.2 ⟨fun _ => hr.undone rfl,nofun⟩
      | some d =>
        obtain ⟨hmade,hshows⟩ := hr.made d rfl
        refine (loadImage_image hk hfile (leNat_lt b 28 4) (hmade.loaded hshows hL)).bind fun r hr => ?_
        obtain ⟨k2,d2,o⟩ := r
        cases o with
        | none =>
          obtain ⟨k3,hfree,hundone⟩ := hr.1.freevm hk
          dsimp only
          rw [hfree]
          exact sat_ok.2 ⟨fun _ => hundone,nofun⟩
        | some sz =>
          refine sat_pure.2 ⟨nofun,fun i hi => ?_⟩
          obtain ⟨n,hsz,himage⟩ := hr.2 sz rfl
          rw [← Option.some.inj hi]
          refine ⟨n,hsz,?_,himage⟩
          have hrec := readRecord_some hb
          rw [drop_zero] at hrec
          exact congrArg Elfhdr.ofBytes hrec

end Xv6.Vm
