import Xv6.User.UmallocFree

/-! # `malloc`, and the runs of a program

`malloc` takes a block off the list or the end of one, and asks `sbrk` for more memory when the
whole loop has none that is large enough.  Then the block of the new region is found. -/
namespace Xv6.Umalloc
open Function Heap Loop Tiling List

section Take
variable {base : ℕ} {h : Heap} {l live : List ℕ} {a b n p prevp : ℕ} {xs ys : List ℕ}

theorem Shape.unlink (hs : Shape base h l live []) (hl : base :: l = xs ++ prevp :: p :: ys) :
    ∃ l', base :: l' = xs ++ prevp :: ys ∧
      Shape base (h.setPtr prevp (h.ptr p)) l' (p :: live) [] := by
  obtain ⟨l',hl'⟩ := exists_tail hl ys
  have hperm : l.Perm (p :: l') := perm_tail hl hl'
  have hleads := hs.leads
  have hsorted := hs.sorted
  have hnodup := hs.nodup
  rw [hl] at hleads hsorted hnodup
  have hsub : ∀ c ∈ l', c ∈ l := fun c hc => hperm.mem_iff.2 (mem_cons_of_mem _ hc)
  refine ⟨l',hl',?_,?_,?_,?_,?_,?_⟩
  · rw [hl',ptr_setPtr]
    exact hleads.remove hnodup
  · rw [hl']
    exact hsorted.sublist
      ((List.Sublist.cons_cons prevp (sublist_cons_self p ys)).append_left xs)
  · rw [size_setPtr,hs.size_base]
  · intro c hc
    rcases mem_cons.1 hc with rfl | hc
    · exact hs.base_lt (hperm.mem_iff.2 (by simp))
    · exact hs.above c hc
  · rw [size_setPtr]
    refine hs.tiles.perm ((hperm.append_right live).trans ?_)
    exact perm_middle.symm
  · intro c hc _
    rw [size_setPtr]
    exact fun hend => hs.gap c (hsub c hc) (by simp) (hsub _ hend)

theorem Shape.cut {m : ℕ} (hs : Shape base h l live []) (hp : p ∈ l) (hsize : h.size p = m + n)
    (hm : 0 < m) (hn : 0 < n) : Shape base ((h.setSize p m).setSize (p + headerSize * m) n) l
      ((p + headerSize * m) :: live) [] := by
  have hperm : (l ++ live).Perm (p :: (l.erase p ++ live)) :=
    (perm_cons_erase hp).append_right live
  have hcut := (hs.tiles.perm hperm).cut headerSize_pos hsize hm hn
  have hperm' : (p :: (p + headerSize * m) :: (l.erase p ++ live)).Perm
      (l ++ (p + headerSize * m) :: live) := by
    refine (List.Perm.swap ..).trans ?_
    refine (hperm.symm.cons _).trans ?_
    exact perm_middle.symm
  have htiles := hcut.perm hperm'
  have hnodup := htiles.nodup headerSize_pos
  have hq : p + headerSize * m ∉ l := fun hmem =>
    (nodup_append.1 hnodup).2.2 _ hmem _ (by simp) rfl
  have hbase := hs.base_lt hp
  refine ⟨by simpa using hs.leads,hs.sorted,?_,?_,by simpa using htiles,?_⟩
  · rw [size_setSize,size_setSize,update_of_ne (by omega),
      update_of_ne (by omega),hs.size_base]
  · intro c hc
    rcases mem_cons.1 hc with rfl | hc
    · omega
    · exact hs.above c hc
  · intro c hc _
    rw [size_setSize,size_setSize, update_of_ne (ne_of_mem_of_not_mem hc hq)]
    by_cases hcp : c = p
    · subst hcp
      rwa [Function.update_self]
    · rw [update_of_ne hcp]
      exact hs.gap c hc (by simp)

/-- The heap `h'` after a call: it has its shape, `freep` is in the list, the blocks that were in use
before have their sizes, and no header is written outside of the regions. -/
structure Kept (base : ℕ) (h : Heap) (live : List ℕ) (h' : Heap) (live' : List ℕ) : Prop where
  shape : ∃ l, Shape base h' l live' [] ∧ h'.freep ∈ base :: l
  size : ∀ a ∈ live, a ∈ live' → h'.size a = h.size a
  mem : ∀ x, ¬ Inside base h'.regions x → h'.mem x = h.mem x

/-- The block behind `prevp` or its end is taken. -/
theorem Shape.takeBlock (hs : Shape base h l live []) (hprev : prevp ∈ base :: l) (hn : 0 < n)
    (hsize : n ≤ h.size (h.ptr prevp)) :
    ∃ h' a, takeBlock h n prevp (h.ptr prevp) = (h',a + headerSize) ∧ h'.size a = n ∧
      h'.regions = h.regions ∧ Kept base h live h' (a :: live) := by
  have hprev' : ∀ x, ¬ Inside base h.regions x → x ≠ prevp := fun x hx hxp =>
    hx (hxp ▸ hs.inside (mem_append_left _ hprev))
  obtain ⟨hptr,-⟩ | ⟨xs,ys,hl,hlt,hp,-⟩ := hs.next hprev
  · -- `base` is too small
    rw [hptr,hs.size_base] at hsize
    omega
  unfold Umalloc.takeBlock
  split
  next heq =>
    obtain ⟨l',hl',hs'⟩ := hs.unlink hl
    refine ⟨_,_,rfl,?_,rfl,⟨l',hs'.setFreep prevp,?_⟩,?_,fun x hx => ?_⟩
    · rw [size_setFreep,size_setPtr,heq]
    · simp [hl']
    · intro c _ _
      rw [size_setFreep,size_setPtr]
    · exact mem_setPtr_of_ne _ (hprev' x hx)
  next hne =>
    have hs' := hs.cut (m := h.size (h.ptr prevp) - n) (n := n) hp (by omega) (by omega) hn
    have hset : (h.setSize (h.ptr prevp) (h.size (h.ptr prevp) - n)).size (h.ptr prevp) =
        h.size (h.ptr prevp) - n := by simp
    dsimp only
    rw [hset]
    refine ⟨_,h.ptr prevp + headerSize * (h.size (h.ptr prevp) - n),rfl,?_,rfl,
      ⟨l,hs'.setFreep prevp,hprev⟩,?_,fun x hx => ?_⟩
    · simp
    · intro c hc _
      have hcp : c ≠ h.ptr prevp := fun h => hs.not_mem hc (h ▸ mem_cons_of_mem _ hp)
      have hcq : c ≠ h.ptr prevp + headerSize * (h.size (h.ptr prevp) - n) := by
        rintro rfl
        have hnodup := (nodup_append.1 (hs'.tiles.nodup headerSize_pos)).2.1
        exact (nodup_cons.1 hnodup).1 hc
      rw [size_setFreep,size_setSize,size_setSize,update_of_ne hcq, update_of_ne hcp]
    · have hxp : x ≠ h.ptr prevp := by
        rintro rfl
        exact hx (hs.inside (mem_append_left _ (mem_cons_of_mem _ hp)))
      refine (mem_setSize_of_ne _ fun heq => hx ?_).trans (mem_setSize_of_ne _ hxp)
      rw [heq]
      exact hs'.inside (by simp)

end Take

section Morecore
variable {base : ℕ} {h : Heap} {l live : List ℕ} {n : ℕ} {sbrk : Sbrk}

/-- A stretch of the regions that no block in use meets is in one free block. -/
theorem Shape.covers {x : ℕ} (hs : Shape base h l live []) (hn : 0 < n)
    (hregion : ∀ y, x ≤ y → y < x + headerSize * n → ∃ r ∈ h.regions, r.1 ≤ y ∧ y < r.1 + r.2)
    (hlive : ∀ a ∈ live, a + headerSize * h.size a ≤ x) : ∃ a ∈ l, n ≤ h.size a := by
  have hpos := Nat.mul_pos headerSize_pos hn
  have hfree : ∀ y, x ≤ y → y < x + headerSize * n → ∃ a ∈ l, InBlock headerSize h.size a y := by
    intro y hxy hy
    obtain ⟨a,ha,hblock⟩ := (hs.tiles.cover y).1 (hregion y hxy hy)
    rcases mem_append.1 ha with ha | ha
    · exact ⟨a,ha,hblock⟩
    · have := hlive a ha
      have := hblock.2
      omega
  obtain ⟨a,ha,hax,hxa⟩ := hfree x (Nat.le_refl _) (by omega)
  refine ⟨a,ha,?_⟩
  by_contra hlt
  -- the block at the end of `a` would be free as well
  have hmul := Nat.mul_le_mul_left headerSize (Nat.succ_le_of_lt (Nat.lt_of_not_le hlt))
  have hend : a + headerSize * h.size a < x + headerSize * n := by
    simp only [Nat.mul_succ,headerSize] at hmul hpos ⊢
    omega
  obtain ⟨b,hb,hbe,heb⟩ := hfree _ hxa.le hend
  rcases Nat.lt_trichotomy a b with hab | rfl | hab
  · have := hs.end_le ha hb hab
    exact hs.gap a ha (by simp) ((show a + headerSize * h.size a = b by omega) ▸ hb)
  · omega
  · have := hs.end_le hb ha hab
    omega

/-- The region from `sbrk` as a block in use. -/
theorem Shape.grow {hp : ℕ} (hs : Shape base h l live []) (hbase : base < hp) (hn : 0 < n)
    (hr : ∀ r ∈ h.regions, r.1 + r.2 ≤ hp) :
    Shape base ({ h with regions := (hp,headerSize * n) :: h.regions }.setSize hp n) l
      (hp :: live) [] := by
  have hend : ∀ a ∈ l ++ live, a + headerSize * h.size a ≤ hp := fun a ha =>
    hs.tiles.end_le headerSize_pos hr ha
  have hne : ∀ a ∈ l ++ live, a ≠ hp := by
    intro a ha
    have := hend a ha
    have := Nat.mul_pos headerSize_pos (hs.tiles.pos a ha)
    omega
  refine ⟨?_,hs.sorted,?_,?_,?_,?_⟩
  · rw [ptr_setSize]
    exact hs.leads
  · rw [size_setSize,update_of_ne (Nat.ne_of_lt hbase)]
    exact hs.size_base
  · intro c hc
    rcases mem_cons.1 hc with rfl | hc
    · exact hbase
    · exact hs.above c hc
  · rw [size_setSize]
    exact (hs.tiles.grow headerSize_pos hr hn).perm perm_middle.symm
  · intro c hc _
    rw [size_setSize,update_of_ne (hne c (mem_append_left _ hc))]
    exact hs.gap c hc (by simp)

theorem morecore_none (hnone : sbrk h.regions (coreUnits n * headerSize % 2 ^ 32) = none) :
    morecore sbrk h n = some (h,0) := by
  simp only [morecore,hnone]

/-- With the memory from `sbrk` there is a free block that is large enough. -/
theorem Shape.morecore {hp : ℕ} (hs : Shape base h l live []) (hf : h.freep ∈ base :: l)
    (hn : n < 2 ^ 28) (hfresh : sbrk.Fresh base)
    (hsome : sbrk h.regions (coreUnits n * headerSize % 2 ^ 32) = some hp) :
    ∃ h' l', morecore sbrk h n = some (h',h'.freep) ∧ Shape base h' l' live [] ∧
      h'.freep ∈ base :: l' ∧ (∃ a ∈ l', n ≤ h'.size a) ∧ (∀ a ∈ live, h'.size a = h.size a) ∧
      h'.regions = (hp,coreUnits n * headerSize % 2 ^ 32) :: h.regions ∧
      h'.fuel = h.fuel + headerSize * coreUnits n ∧
      ∀ x, ¬ Inside base h'.regions x → h'.mem x = h.mem x := by
  have hmod : coreUnits n * headerSize % 2 ^ 32 = headerSize * coreUnits n := by
    rw [Nat.mul_comm]
    apply Nat.mod_eq_of_lt
    simp only [coreUnits,headerSize]
    split <;> omega
  have hpos : 0 < coreUnits n := by
    simp only [coreUnits]
    split <;> omega
  have hle : n ≤ coreUnits n := by
    simp only [coreUnits]
    split <;> omega
  obtain ⟨hbase,hr⟩ := hfresh _ _ _ hsome
  have hend : ∀ a ∈ l ++ live, a + headerSize * h.size a ≤ hp := fun a ha =>
    hs.tiles.end_le headerSize_pos hr ha
  have hs1 := hs.grow (by simp only [headerSize] at hbase; omega) hpos hr
  obtain ⟨h',l',hfree,hs',hf',hregions,hsize,hmem⟩ := hs1.free hf
  have hsize' : ∀ a ∈ live, h'.size a = h.size a := by
    intro a ha
    rw [hsize a ha,size_setSize,update_of_ne]
    · rfl
    · have := hend a (mem_append_right _ ha)
      have := Nat.mul_pos headerSize_pos (hs.tiles.pos a (mem_append_right _ ha))
      omega
  refine ⟨h',l',?_,hs',hf',?_,hsize',by rw [hregions,hmod]; rfl,?_,fun x hx => ?_⟩
  · rw [hmod] at hsome
    simp only [Umalloc.morecore,hmod,hsome,hfree,Option.map_some]
  · have hregion : ∀ y, hp ≤ y → y < hp + headerSize * coreUnits n →
        ∃ r ∈ h'.regions, r.1 ≤ y ∧ y < r.1 + r.2 := by
      intro y h1 h2
      rw [hregions]
      exact ⟨_,mem_cons_self,h1,h2⟩
    have hlive : ∀ a ∈ live, a + headerSize * h'.size a ≤ hp := by
      intro a ha
      rw [hsize' a ha]
      exact hend a (mem_append_right _ ha)
    obtain ⟨a,ha,hna⟩ := hs'.covers hpos hregion hlive
    exact ⟨a,ha,hle.trans hna⟩
  · rw [fuel,hregions]
    simp only [regions_setSize,map_cons,sum_cons,fuel]
    omega
  · rw [hregions] at hx
    have hxp : x ≠ hp := by
      rintro rfl
      exact hx (hs1.inside (by simp))
    exact (hmem x hx).trans (mem_setSize_of_ne _ hxp)

end Morecore

section Search
variable {base : ℕ} {h : Heap} {l live : List ℕ} {a f n : ℕ} {c : List ℕ} {sbrk : Sbrk}

/-- What `malloc` does at `p == freep` when no block was large enough. -/
def outOfMemory (sbrk : Sbrk) (h : Heap) (n fuel : ℕ) : Option (Heap × ℕ) :=
  (morecore sbrk h n).bind fun (h,p) =>
    if p = 0 then some (h,0) else mallocLoop sbrk n fuel h p (h.ptr p)

/-- The loop takes the first block that is large enough, or ends at `freep`. -/
theorem mallocLoop_path (sbrk : Sbrk) (n : ℕ) (hleads : Leads h.ptr (a :: c) f) (hf : h.freep = f) (hfc : f ∉ c)
    (fuel : ℕ) : (∃ prevp ∈ a :: c, n ≤ h.size (h.ptr prevp) ∧
      mallocLoop sbrk n (fuel + c.length + 1) h a (h.ptr a) =
        some (takeBlock h n prevp (h.ptr prevp))) ∨ (∀ x ∈ c ++ [f], h.size x < n) ∧
      mallocLoop sbrk n (fuel + c.length + 1) h a (h.ptr a) = outOfMemory sbrk h n fuel := by
  induction c generalizing a with
  | nil =>
    have hptr : h.ptr a = f := hleads.1
    rw [mallocLoop]
    by_cases hsize : n ≤ h.size (h.ptr a)
    · exact .inl ⟨a,by simp,hsize,if_pos hsize⟩
    · refine .inr ⟨?_,?_⟩
      · simpa [hptr] using hsize
      · rw [if_neg hsize,if_pos (by rw [hptr,hf])]
        rfl
  | cons x c ih =>
    have hptr : h.ptr a = x := hleads.1
    simp only [mem_cons,not_or] at hfc
    by_cases hsize : n ≤ h.size (h.ptr a)
    · refine .inl ⟨a,by simp,hsize,?_⟩
      rw [mallocLoop,if_pos hsize]
    · have hstep : mallocLoop sbrk n (fuel + (x :: c).length + 1) h a (h.ptr a) =
          mallocLoop sbrk n (fuel + c.length + 1) h x (h.ptr x) := by
        rw [mallocLoop,if_neg hsize,if_neg (by rw [hptr,hf]; exact fun h => hfc.1 h.symm),hptr]
        rfl
      rw [hstep]
      rcases ih hleads.2 hfc.2 with ⟨prevp,hmem,hfit,htake⟩ | ⟨hall,hout⟩
      · exact .inl ⟨prevp,mem_cons_of_mem _ hmem,hfit,htake⟩
      · refine .inr ⟨fun y hy => ?_,hout⟩
        rcases mem_cons.1 hy with rfl | hy
        · rw [hptr] at hsize
          omega
        · exact hall y hy

/-- From `freep` the loop sees every block. -/
theorem Shape.loop_cases (hs : Shape base h l live []) (sbrk : Sbrk) (n : ℕ)
    (hf : h.freep ∈ base :: l) (fuel : ℕ) : (∃ prevp ∈ base :: l, n ≤ h.size (h.ptr prevp) ∧
      mallocLoop sbrk n (fuel + l.length + 1) h h.freep (h.ptr h.freep) =
        some (Umalloc.takeBlock h n prevp (h.ptr prevp))) ∨ (∀ x ∈ l, h.size x < n) ∧
      mallocLoop sbrk n (fuel + l.length + 1) h h.freep (h.ptr h.freep) =
        outOfMemory sbrk h n fuel := by
  obtain ⟨us,vs,hl⟩ := append_of_mem hf
  have hleads := hs.leads
  have hnodup := hs.nodup
  rw [hl] at hleads hnodup
  have hperm : (h.freep :: (vs ++ us)).Perm (base :: l) := by
    rw [hl,← cons_append]
    exact perm_append_comm
  have hhead : us.headD h.freep = base := by
    have := congrArg (List.headD · base) hl
    rw [headD_append] at this
    exact this.symm
  have hlen : l.length = (vs ++ us).length := by
    have := hperm.length_eq
    simp only [length_cons] at this
    omega
  have hfc : h.freep ∉ vs ++ us := by
    have := hperm.nodup_iff.2 hs.nodup
    exact (nodup_cons.1 this).1
  rw [hlen]
  rcases mallocLoop_path sbrk n (hleads.rotate hhead) rfl hfc fuel with
    ⟨prevp,hmem,hfit,htake⟩ | ⟨hall,hout⟩
  · exact .inl ⟨prevp,hperm.mem_iff.1 hmem,hfit,htake⟩
  · refine .inr ⟨fun x hx => hall x ?_,hout⟩
    have hx : x ∈ h.freep :: (vs ++ us) := hperm.mem_iff.2 (mem_cons_of_mem _ hx)
    simpa [or_comm,or_assoc,or_left_comm] using hx

end Search

section Malloc
variable {base : ℕ} {h : Heap} {l live : List ℕ} {n nbytes : ℕ} {sbrk : Sbrk}

/-- What `malloc` returns: 0 when `sbrk` has failed, or the address behind the header of a block of
enough units. -/
def Allocated (base : ℕ) (sbrk : Sbrk) (h : Heap) (live : List ℕ) (n : ℕ) (r : Heap × ℕ) : Prop :=
  (r.2 = 0 ∧ sbrk h.regions (coreUnits n * headerSize % 2 ^ 32) = none ∧
    Kept base h live r.1 live) ∨
  ∃ a, r.2 = a + headerSize ∧ n ≤ r.1.size a ∧ Kept base h live r.1 (a :: live)

theorem Shape.length_lt_fuel (hs : Shape base h l live []) : l.length + 1 ≤ h.fuel := by
  have hlen : (l ++ live).length ≤ _ := hs.tiles.length_le headerSize_pos
  simp only [length_append] at hlen
  simp only [fuel]
  omega

theorem Shape.base_le (hs : Shape base h l live []) {a : ℕ} (ha : a ∈ base :: l) : base ≤ a := by
  rcases mem_cons.1 ha with rfl | ha
  · exact Nat.le_refl _
  · exact (hs.base_lt ha).le

theorem Shape.malloc (hs : Shape base h l live []) (hf : h.freep ∈ base :: l) (hbase : 0 < base)
    (hn : 0 < n) (hn' : n < 2 ^ 28) (hfresh : sbrk.Fresh base) {fuel : ℕ}
    (hfuel : 2 * h.fuel + headerSize * (n + 4096) ≤ fuel) :
    ∃ r, mallocLoop sbrk n fuel h h.freep (h.ptr h.freep) = some r ∧
      Allocated base sbrk h live n r ∧ (r.1.regions = h.regions ∨ ∃ hp,
        sbrk h.regions (coreUnits n * headerSize % 2 ^ 32) = some hp ∧
        r.1.regions = (hp,coreUnits n * headerSize % 2 ^ 32) :: h.regions) := by
  have hlen := hs.length_lt_fuel
  obtain ⟨fuel1,rfl⟩ : ∃ k, fuel = k + l.length + 1 := ⟨fuel - l.length - 1,by omega⟩
  rcases hs.loop_cases sbrk n hf fuel1 with ⟨prevp,hprev,hfit,htake⟩ | ⟨-,hout⟩
  · obtain ⟨h',a,heq,hsize,hregions,hkept⟩ := hs.takeBlock hprev hn hfit
    rw [htake,heq]
    exact ⟨_,rfl,.inr ⟨a,rfl,hsize.ge,hkept⟩,.inl hregions⟩
  rw [hout,outOfMemory]
  cases hsbrk : sbrk h.regions (coreUnits n * headerSize % 2 ^ 32) with
  | none =>
    rw [morecore_none hsbrk]
    exact ⟨_,rfl,.inl ⟨rfl,hsbrk,⟨l,hs,hf⟩,fun _ _ _ => rfl,fun _ _ => rfl⟩,.inl rfl⟩
  | some hp =>
    -- now the list has a block that is large enough
    obtain ⟨h',l',hcore,hs',hf',⟨x,hx,hfit⟩,hsize,hregions,hfuel',hmem⟩ :=
      hs.morecore hf hn' hfresh hsbrk
    have hne : h'.freep ≠ 0 := by
      have := hs'.base_le hf'
      omega
    have hlen' := hs'.length_lt_fuel
    have hcore' : coreUnits n ≤ n + 4096 := by
      simp only [coreUnits]
      split <;> omega
    obtain ⟨fuel2,rfl⟩ : ∃ k, fuel1 = k + l'.length + 1 := ⟨fuel1 - l'.length - 1,by
      simp only [headerSize] at hfuel hfuel'
      omega⟩
    rw [hcore,Option.bind_some]
    dsimp only
    rw [if_neg hne]
    rcases hs'.loop_cases sbrk n hf' fuel2 with
      ⟨prevp,hprev,hfit',htake⟩ | ⟨hall,-⟩
    · obtain ⟨h'',a,heq,hsize',hregions',hkept⟩ := hs'.takeBlock hprev hn hfit'
      rw [htake,heq]
      refine ⟨_,rfl,.inr ⟨a,rfl,hsize'.ge,hkept.shape,fun b hb hb' => ?_,fun y hy => ?_⟩,
        .inr ⟨hp,rfl,hregions'.trans hregions⟩⟩
      · rw [hkept.size b hb hb',hsize b hb]
      · exact (hkept.mem y hy).trans (hmem y (hregions' ▸ hy))
    · exact absurd hfit (Nat.not_le_of_lt (hall x hx))

theorem nunits_spec (hn : nbytes ≤ 2 ^ 31 - 16) :
    0 < nunits nbytes ∧ nunits nbytes < 2 ^ 28 ∧ nbytes + headerSize ≤ headerSize * nunits nbytes := by
  simp only [nunits,headerSize]
  omega

end Malloc

section Run
variable {base : ℕ} {mem : ℕ → Header} {w : World} {op : Op}

/-- The heap of a program: as it was loaded, or with the shape that `malloc` and `free` keep. -/
def Inv (base : ℕ) (w : World) : Prop :=
  (w.heap.freep = 0 ∧ w.heap.regions = [] ∧ w.live = []) ∨
    ∃ l, Shape base w.heap l w.live [] ∧ w.heap.freep ∈ base :: l

theorem Shape.perm {h : Heap} {l live live' : List ℕ} (hs : Shape base h l live [])
    (hp : live.Perm live') : Shape base h l live' [] :=
  ⟨hs.leads,hs.sorted,hs.size_base,fun a ha => hs.above a (hp.mem_iff.2 ha),
    hs.tiles.perm (hp.append_left l),hs.gap⟩

theorem Inv.init (hinv : Inv base w) (hbase : 0 < base) :
    ∃ l, Shape base (init base w.heap) l w.live [] ∧ (init base w.heap).freep ∈ base :: l ∧
      (init base w.heap).regions = w.heap.regions ∧
      (∀ a ∈ w.live, (init base w.heap).size a = w.heap.size a) ∧
      ∀ x, x ≠ base → (init base w.heap).mem x = w.heap.mem x := by
  rcases hinv with ⟨hfreep,hregions,hlive⟩ | ⟨l,hs,hf⟩
  · have heq : Umalloc.init base w.heap =
        ((w.heap.setPtr base base).setFreep base).setSize base 0 := if_pos hfreep
    rw [heq,hlive]
    refine ⟨[],⟨?_,by simp,by simp,by simp,?_,by simp⟩,by simp,rfl,by simp,fun x hx => ?_⟩
    · simp [Leads]
    · simpa [hregions] using Tiles.nil
    · exact (mem_setSize_of_ne _ hx).trans (mem_setPtr_of_ne _ hx)
  · have hne : w.heap.freep ≠ 0 := by
      have := hs.base_le hf
      omega
    have heq : Umalloc.init base w.heap = w.heap := if_neg hne
    rw [heq]
    exact ⟨l,hs,hf,rfl,fun _ _ => rfl,fun _ _ => rfl⟩

def Answers (w w' : World) (r : ℕ) : Op → Prop
  | .malloc nbytes sbrk =>
    (r = 0 ∧ sbrk w.heap.regions (coreUnits (nunits nbytes) * headerSize % 2 ^ 32) = none ∧
      w'.live = w.live) ∨
    ∃ a, r = a + headerSize ∧ w'.live = a :: w.live ∧
      r + nbytes ≤ a + headerSize * w'.heap.size a
  | .free ap => w'.live = w.live.erase (ap - headerSize)

theorem Inv.malloc {nbytes : ℕ} {sbrk : Sbrk} (hinv : Inv base w) (hbase : 0 < base)
    (hbytes : nbytes ≤ 2 ^ 31 - 16) (hfresh : sbrk.Fresh base) :
    ∃ w' r, call base w (.malloc nbytes sbrk) = some (w',r) ∧ Kept base w.heap w.live w'.heap w'.live ∧
      Answers w w' r (.malloc nbytes sbrk) ∧ (w'.heap.regions = w.heap.regions ∨ ∃ hp,
        sbrk w.heap.regions (coreUnits (nunits nbytes) * headerSize % 2 ^ 32) = some hp ∧
        w'.heap.regions =
          (hp,coreUnits (nunits nbytes) * headerSize % 2 ^ 32) :: w.heap.regions) := by
  obtain ⟨hpos,hlt,hroom⟩ := nunits_spec hbytes
  obtain ⟨l,hs,hf,hregions,hsize,hmem⟩ := hinv.init hbase
  obtain ⟨⟨h',ap⟩,hloop,halloc,hgrant⟩ := hs.malloc hf hbase hpos hlt hfresh (Nat.le_refl _)
  rw [hregions] at hgrant
  have hkeep : ∀ live', Kept base (Umalloc.init base w.heap) w.live h' live' →
      Kept base w.heap w.live h' live' := fun live' hkept =>
    ⟨hkept.shape,fun b hb hb' => (hkept.size b hb hb').trans (hsize b hb),
      fun x hx => (hkept.mem x hx).trans (hmem x fun h => hx (.inl h))⟩
  rw [Umalloc.call,Umalloc.malloc]
  simp only [hloop,Option.map_some]
  rcases halloc with ⟨hap,hnone,hkept⟩ | ⟨a,hap,hunits,hkept⟩
  · rw [if_pos hap]
    rw [hregions] at hnone
    exact ⟨_,_,rfl,hkeep _ hkept,.inl ⟨rfl,hnone,rfl⟩,hgrant⟩
  · have hne : ap ≠ 0 := by
      simp only [headerSize] at hap
      omega
    obtain rfl : ap = a + headerSize := hap
    rw [if_neg hne,Nat.add_sub_cancel]
    refine ⟨_,_,rfl,hkeep _ hkept,.inr ⟨a,rfl,rfl,?_⟩,hgrant⟩
    have := Nat.mul_le_mul_left headerSize hunits
    dsimp only at this ⊢
    omega

theorem Inv.free {ap : ℕ} (hinv : Inv base w) (hok : ∃ a ∈ w.live, ap = a + headerSize) :
    ∃ w' r, call base w (.free ap) = some (w',r) ∧
      (∃ l, Shape base w'.heap l w'.live [] ∧ w'.heap.freep ∈ base :: l) ∧
      (∀ a ∈ w.live, a ∈ w'.live → w'.heap.size a = w.heap.size a) ∧ Answers w w' r (.free ap) := by
  obtain ⟨a,ha,rfl⟩ := hok
  rcases hinv with ⟨-,-,hlive⟩ | ⟨l,hs,hf⟩
  · rw [hlive] at ha
    cases ha
  · obtain ⟨h',l',hfree,hs',hf',-,hsize,-⟩ := (hs.perm (perm_cons_erase ha)).free hf
    rw [Umalloc.call,hfree,Nat.add_sub_cancel]
    refine ⟨_,_,rfl,⟨l',hs',hf'⟩,fun b _ hb => hsize b hb,?_⟩
    rw [Answers,Nat.add_sub_cancel]

theorem Inv.call (hinv : Inv base w) (hbase : 0 < base) (hok : Ok base w op) :
    ∃ w' r, call base w op = some (w',r) ∧
      (∃ l, Shape base w'.heap l w'.live [] ∧ w'.heap.freep ∈ base :: l) ∧
      (∀ a ∈ w.live, a ∈ w'.live → w'.heap.size a = w.heap.size a) ∧ Answers w w' r op := by
  cases op with
  | malloc nbytes sbrk =>
    obtain ⟨w',r,hcall,hkept,hans,-⟩ :=
      hinv.malloc hbase (Nat.le_trans (Nat.le_of_lt hok.1) (by decide)) hok.2
    exact ⟨w',r,hcall,hkept.shape,hkept.size,hans⟩
  | free ap => exact hinv.free hok

/-- The heap keeps its shape through every sequence of calls, and every call returns: the free list
is a loop through `base` of increasing addresses, free blocks and blocks in use tile the regions
from `sbrk`, no two free blocks are adjacent, blocks in use keep their sizes, and `malloc` returns
a block with room for the bytes unless `sbrk` has failed. -/
theorem heap_keeps_shape (hbase : 0 < base) (hw : Reachable base mem w) (hok : Ok base w op) :
    ∃ w' r, call base w op = some (w',r) ∧
      (∃ l, Shape base w'.heap l w'.live [] ∧ w'.heap.freep ∈ base :: l) ∧
      (∀ a ∈ w.live, a ∈ w'.live → w'.heap.size a = w.heap.size a) ∧ Answers w w' r op := by
  have hinv : Inv base w := by
    refine hw.invariant (.inl ⟨rfl,rfl,rfl⟩) fun w w' op hinv hok hstep => ?_
    obtain ⟨w₁,r,hcall,hshape,-⟩ := hinv.call hbase hok
    rw [hcall,Option.map_some,Option.some.injEq] at hstep
    subst hstep
    exact .inr hshape
  exact hinv.call hbase hok

def sbrkOnce : Sbrk := fun rs _ => if rs.isEmpty then some 4096 else none

theorem sbrkOnce_fresh : sbrkOnce.Fresh 8 := by
  intro rs nbytes a h
  cases rs with
  | nil =>
    obtain rfl : 4096 = a := Option.some.inj h
    simp [headerSize]
  | cons r rs => cases h

/-- A program that allocates 100 bytes and frees them. -/
theorem heap_keeps_shape_two : ∃ w r w', call 8 ⟨⟨fun _ => ⟨0,0⟩,0,[]⟩,[]⟩
      (.malloc 100 sbrkOnce) = some (w,r) ∧ r ≠ 0 ∧ call 8 w (.free r) = some (w',0) ∧
    ∃ l, Shape 8 w'.heap l w'.live [] ∧ w'.heap.freep ∈ 8 :: l := by
  have hok : Ok 8 ⟨⟨fun _ => ⟨0,0⟩,0,[]⟩,[]⟩ (.malloc 100 sbrkOnce) :=
    ⟨by decide,sbrkOnce_fresh⟩
  obtain ⟨w,r,hcall,-,-,hans⟩ := heap_keeps_shape (by decide) .init hok
  rcases hans with ⟨-,hnone,-⟩ | ⟨a,hr,hlive,-⟩
  · cases hnone
  have hw : Reachable 8 (fun _ => ⟨0,0⟩) w := .step .init hok (by rw [hcall]; rfl)
  have hfree : Ok 8 w (.free r) := ⟨a,by simp [hlive],hr⟩
  obtain ⟨w',r',hcall',hshape,-,-⟩ := heap_keeps_shape (by decide) hw hfree
  have hr' : r' = 0 := by
    obtain ⟨_,-,h⟩ := Option.map_eq_some_iff.1 hcall'
    exact (Prod.mk.inj h).2.symm
  subst hr'
  exact ⟨w,r,w',hcall,by simp [hr,headerSize],hcall',hshape⟩

end Run

section Sbrk

/-- `growproc(n)` in a process of `sz` bytes, with its size afterwards; `room` says whether
`allocuvm` finds the pages.  `deallocuvm` leaves the size alone where `sz + n` wraps around. -/
def growproc (room : Bool) (sz : ℕ) (n : ℤ) : Option ℕ :=
  if n > 0 then
    if sz + n < 0x80000000 ∧ room then some (sz + n).toNat else none
  else if n < 0 then
    let newsz := min sz ((sz + n) % 2 ^ 32).toNat
    if newsz = 0 then none else some newsz
  else some sz

/-- A `uint` as the `int` that `sbrk` takes. -/
def toInt (n : ℕ) : ℤ := if n < 2 ^ 31 then n else n - 2 ^ 32

/-- The size of a process that has got the regions from `sbrk`. -/
def procSize (sz : ℕ) (rs : List (ℕ × ℕ)) : ℕ := rs.foldr (fun r sz => max (r.1 + r.2) sz) sz

/-- `sys_sbrk` in a process that was loaded with `sz` bytes. -/
def sysSbrk (sz : ℕ) (room : Bool) : Sbrk := fun rs nbytes =>
  (growproc room (procSize sz rs) (toInt nbytes)).map fun _ => procSize sz rs

/-- The calls of a program whose requests stay below 2 GB. -/
def OkSys (sz : ℕ) (w : World) : Op → Prop
  | .malloc nbytes sbrk => nbytes ≤ 2 ^ 31 - 16 ∧ ∃ room, sbrk = sysSbrk sz room
  | .free ap => ∃ a ∈ w.live, ap = a + headerSize

variable {base sz : ℕ} {w : World}

theorem procSize_spec (sz : ℕ) (rs : List (ℕ × ℕ)) :
    sz ≤ procSize sz rs ∧ ∀ r ∈ rs, r.1 + r.2 ≤ procSize sz rs := by
  induction rs with
  | nil => simp [procSize]
  | cons r rs ih =>
    rw [procSize,foldr_cons,← procSize,forall_mem_cons]
    exact ⟨ih.1.trans (Nat.le_max_right _ _),Nat.le_max_left _ _,
      fun r' hr' => (ih.2 r' hr').trans (Nat.le_max_right _ _)⟩

theorem sysSbrk_fresh (room : Bool) (hsz : base + headerSize ≤ sz) :
    (sysSbrk sz room).Fresh base := by
  intro rs nbytes a h
  obtain ⟨_,-,rfl⟩ := Option.map_eq_some_iff.1 h
  obtain ⟨hle,hall⟩ := procSize_spec sz rs
  exact ⟨hsz.trans hle,hall⟩

theorem sysSbrk_grants {room : Bool} {rs : List (ℕ × ℕ)} {n hp : ℕ} (hn : 0 < n)
    (hlt : n < 2 ^ 31) (h : sysSbrk sz room rs n = some hp) :
    hp = procSize sz rs ∧ growproc room hp n = some (hp + n) := by
  obtain ⟨sz',hgrow,rfl⟩ := Option.map_eq_some_iff.1 h
  rw [toInt,if_pos hlt] at hgrow
  refine ⟨rfl,?_⟩
  rw [growproc,if_pos (by omega)] at hgrow ⊢
  split at hgrow
  next hfits =>
    rw [if_pos hfits]
    exact congrArg some (by omega)
  next => cases hgrow

/-- In a run whose requests are of at most 2^31 - 16 bytes, `malloc` returns 0 or memory for the
bytes that `sbrk` has granted, and it writes headers nowhere else. -/
theorem malloc_delivers (mem : ℕ → Header) (hbase : 0 < base) (hsz : base + headerSize ≤ sz)
    (hw : Machine.Reach (fun w op => (call base w op).map Prod.fst) (OkSys sz) ⟨⟨mem,0,[]⟩,[]⟩ w)
    {nbytes : ℕ} (hn : nbytes ≤ 2 ^ 31 - 16) (room : Bool) :
    ∃ w' r, call base w (.malloc nbytes (sysSbrk sz room)) = some (w',r) ∧
      (r = 0 ∨ ∀ y, r ≤ y → y < r + nbytes →
        ∃ g ∈ w'.heap.regions, g.1 ≤ y ∧ y < g.1 + g.2) ∧
      (w'.heap.regions = w.heap.regions ∨ ∃ hp n : ℕ, hp = procSize sz w.heap.regions ∧
        growproc room hp n = some (hp + n) ∧ w'.heap.regions = (hp,n) :: w.heap.regions) ∧
      ∀ x, ¬ Inside base w'.heap.regions x → w'.heap.mem x = w.heap.mem x := by
  have hinv : Inv base w := by
    refine hw.invariant (.inl ⟨rfl,rfl,rfl⟩) fun w w' op hinv hok hstep => ?_
    obtain ⟨⟨w1,r⟩,hcall,rfl⟩ := Option.map_eq_some_iff.1 hstep
    cases op with
    | malloc nbytes sbrk =>
      obtain ⟨hbytes,room,rfl⟩ := hok
      obtain ⟨w2,r2,hcall',hkept,-⟩ := hinv.malloc hbase hbytes (sysSbrk_fresh room hsz)
      cases hcall.symm.trans hcall'
      exact .inr hkept.shape
    | free ap =>
      obtain ⟨w2,r2,hcall',hshape,-⟩ := hinv.free hok
      cases hcall.symm.trans hcall'
      exact .inr hshape
  obtain ⟨w',r,hcall,hkept,hans,hgrant⟩ := hinv.malloc hbase hn (sysSbrk_fresh room hsz)
  refine ⟨w',r,hcall,?_,?_,hkept.mem⟩
  · rcases hans with ⟨hr,-⟩ | ⟨a,rfl,hlive,hroom⟩
    · exact .inl hr
    · obtain ⟨l,hs,-⟩ := hkept.shape
      refine .inr fun y hy hy' => (hs.tiles.cover y).2 ⟨a,by simp [hlive],?_,?_⟩ <;> omega
  · obtain ⟨hpos,hlt,-⟩ := nunits_spec hn
    refine hgrant.imp_right fun ⟨hp,hsbrk,hregions⟩ => ?_
    obtain ⟨heq,hgrow⟩ := sysSbrk_grants (by simp only [coreUnits,headerSize]; split <;> omega)
      (by simp only [coreUnits,headerSize]; split <;> omega) hsbrk
    exact ⟨hp,_,heq,hgrow,hregions⟩

theorem malloc_delivers_first : ∃ w r, call 8 ⟨⟨fun _ => ⟨0,0⟩,0,[]⟩,[]⟩
      (.malloc 100 (sysSbrk 4096 true)) = some (w,r) ∧ r ≠ 0 ∧
    ∀ y, r ≤ y → y < r + 100 → ∃ g ∈ w.heap.regions, g.1 ≤ y ∧ y < g.1 + g.2 := by
  obtain ⟨w,r,hcall,hblock,-⟩ := malloc_delivers (fun _ => ⟨0,0⟩) (show 0 < 8 by decide)
    (show 8 + headerSize ≤ 4096 by decide) .init (show 100 ≤ 2 ^ 31 - 16 by decide) true
  have hr : r ≠ 0 := by
    rintro rfl
    have hne : ((call 8 ⟨⟨fun _ => ⟨0,0⟩,0,[]⟩,[]⟩ (.malloc 100 (sysSbrk 4096 true))).map
      Prod.snd) ≠ some 0 := by decide +kernel
    exact hne (by rw [hcall]; rfl)
  exact ⟨w,r,hcall,hr,hblock.resolve_left hr⟩

/-- `malloc(0xFFFFFFFF)` returns a block of one unit, which has no room behind its header.  For
2^31 - 15 bytes `sbrk` is called with a negative number and leaves the process as it is, and the
header is written behind the memory of the process. -/
theorem malloc_underdelivers :
    ((call 8 ⟨⟨fun _ => ⟨0,0⟩,0,[]⟩,[]⟩ (.malloc (2 ^ 32 - 1) (sysSbrk 4096 true))).map
      fun r => (r.2,r.1.heap.size (r.2 - headerSize))) = some (36864,1) ∧
    growproc true 4096 (toInt (coreUnits (nunits (2 ^ 31 - 15)) * headerSize % 2 ^ 32)) = some 4096 ∧
    ((call 8 ⟨⟨fun _ => ⟨0,0⟩,0,[]⟩,[]⟩ (.malloc (2 ^ 31 - 15) (sysSbrk 4096 true))).map
      fun r => (r.2,r.1.heap.size 4096)) = some (4104,2 ^ 28) := by
  decide +kernel

end Sbrk

end Xv6.Umalloc
