import Mathlib.Data.Nat.Basic
import Xv6.Lib.Loop
import Xv6.Lib.Tiling
import Xv6.User.Umalloc

/-! # The heap and `free`

The free list is a loop of increasing addresses from `base` on, and the free blocks and the live
ones tile what `sbrk` gave out.  `free` puts a block into the loop and joins it with its
neighbours. -/
namespace Xv6.Umalloc
open Function Heap Loop Tiling List

namespace Heap
variable (h : Heap) (p q n : ℕ)

@[simp] theorem ptr_setPtr : (h.setPtr p q).ptr = update h.ptr p q := by
  ext x
  by_cases hx : x = p <;> simp [ptr,setPtr,hx]

@[simp] theorem size_setPtr : (h.setPtr p q).size = h.size := by
  ext x
  by_cases hx : x = p <;> simp [size,setPtr,hx]

@[simp] theorem ptr_setSize : (h.setSize p n).ptr = h.ptr := by
  ext x
  by_cases hx : x = p <;> simp [ptr,setSize,hx]

@[simp] theorem size_setSize : (h.setSize p n).size = update h.size p n := by
  ext x
  by_cases hx : x = p <;> simp [size,setSize,hx]

@[simp] theorem ptr_setFreep : (h.setFreep p).ptr = h.ptr := rfl

@[simp] theorem size_setFreep : (h.setFreep p).size = h.size := rfl

@[simp] theorem freep_setFreep : (h.setFreep p).freep = p := rfl

@[simp] theorem freep_setPtr : (h.setPtr p q).freep = h.freep := rfl

@[simp] theorem freep_setSize : (h.setSize p n).freep = h.freep := rfl

@[simp] theorem regions_setFreep : (h.setFreep p).regions = h.regions := rfl

@[simp] theorem regions_setPtr : (h.setPtr p q).regions = h.regions := rfl

@[simp] theorem regions_setSize : (h.setSize p n).regions = h.regions := rfl

end Heap

/-- The free list is `base` and the blocks at `l`, and the blocks at `live` are in use.  Only
behind the blocks of `unjoined` may another free block start at once: they are still to be joined. -/
structure Shape (base : ℕ) (h : Heap) (l live : List ℕ) (unjoined : List ℕ) : Prop where
  leads : Leads h.ptr (base :: l) base
  sorted : (base :: l).Pairwise (· < ·)
  size_base : h.size base = 0
  above : ∀ a ∈ live, base < a
  tiles : Tiles headerSize h.size (l ++ live) h.regions
  gap : ∀ a ∈ l, a ∉ unjoined → a + headerSize * h.size a ∉ l

theorem headerSize_pos : 0 < headerSize := by decide

/-- The join of a block with the following one, if they are adjacent. -/
def join (h : Heap) (p : ℕ) : Heap :=
  if p + headerSize * h.size p = h.ptr p then
    (h.setSize p (h.size p + h.size (h.ptr p))).setPtr p (h.ptr (h.ptr p))
  else h

theorem Heap.ext_fields {h h' : Heap} (hptr : h.ptr = h'.ptr) (hsize : h.size = h'.size)
    (hfreep : h.freep = h'.freep) (hregions : h.regions = h'.regions) : h = h' := by
  obtain ⟨mem,freep,regions⟩ := h
  obtain ⟨mem',freep',regions'⟩ := h'
  have hmem : mem = mem' := by
    ext x
    · exact congrFun hptr x
    · exact congrFun hsize x
  simp_all

/-- The block goes into the list and is then joined with its neighbours. -/
theorem insertAt_eq {h : Heap} {bp p : ℕ} (hlt : p < bp) (hnext : h.ptr p ≠ bp) : insertAt h bp p =
      (join (join ((h.setPtr bp (h.ptr p)).setPtr p bp) bp) p).setFreep p := by
  have hne : p ≠ bp := Nat.ne_of_lt hlt
  simp only [insertAt,join,ptr_setPtr,size_setPtr,update_self, update_of_ne hne.symm]
  by_cases hup : bp + headerSize * h.size bp = h.ptr p
  · have hnp : h.ptr p ≠ p := by omega
    simp only [hup,if_true,ptr_setPtr,size_setPtr,size_setSize,
      ptr_setSize,update_self,update_of_ne hne, update_of_ne hnp,update_of_ne hnext]
    by_cases hlow : p + headerSize * h.size p = bp
    · simp only [hlow,if_true]
      refine ext_fields ?_ (by simp) rfl rfl
      ext x
      by_cases hx : x = p <;> by_cases hb : x = bp <;> simp_all [update]
    · simp only [hlow,if_false]
      refine ext_fields ?_ (by simp) rfl rfl
      ext x
      by_cases hx : x = p <;> by_cases hb : x = bp <;> simp_all [update]
  · simp only [hup,if_false,ptr_setPtr,size_setPtr,update_self, update_of_ne hne.symm]
    by_cases hlow : p + headerSize * h.size p = bp
    · simp only [hlow,if_true]
      refine ext_fields ?_ (by simp) rfl rfl
      simp
    · simp only [hlow,if_false]

section Shape
variable {base : ℕ} {h : Heap} {l live unjoined : List ℕ} {a b bp p : ℕ} {xs ys : List ℕ}

section
variable (hs : Shape base h l live unjoined)
include hs

theorem Shape.base_lt (ha : a ∈ l) : base < a :=
  (pairwise_cons.1 hs.sorted).1 a ha

theorem Shape.nodup : (base :: l).Nodup :=
  hs.sorted.imp fun h => Nat.ne_of_lt h

theorem Shape.size_pos (ha : a ∈ l) : 0 < h.size a :=
  hs.tiles.pos a (mem_append_left _ ha)

/-- Free blocks end before the next ones start. -/
theorem Shape.end_le (ha : a ∈ l) (hb : b ∈ l) (hlt : a < b) : a + headerSize * h.size a ≤ b := by
  have hpos := Nat.mul_pos headerSize_pos (hs.size_pos hb)
  rcases hs.tiles.apart_of_ne (mem_append_left live ha) (mem_append_left live hb)
    (Nat.ne_of_lt hlt) with h | h <;> omega

end

theorem exists_tail (h : base :: l = xs ++ p :: ys) (ys' : List ℕ) :
    ∃ l', base :: l' = xs ++ p :: ys' := by
  cases xs with
  | nil =>
    obtain ⟨rfl,-⟩ := List.cons.inj h
    exact ⟨ys',rfl⟩
  | cons x xs =>
    obtain ⟨rfl,-⟩ := List.cons.inj h
    exact ⟨xs ++ p :: ys',rfl⟩

theorem perm_tail {l' : List ℕ} (hl : base :: l = xs ++ p :: b :: ys)
    (hl' : base :: l' = xs ++ p :: ys) : l.Perm (b :: l') := by
  have h : ((xs ++ [p]) ++ b :: ys).Perm (b :: ((xs ++ [p]) ++ ys)) := perm_middle
  rw [← append_cons,← append_cons,← hl,← hl'] at h
  exact (h.trans (.swap ..)).cons_inv

/-- A block that was in use goes into the list. -/
theorem Shape.link (hs : Shape base h l (bp :: live) []) (hl : base :: l = xs ++ p :: ys)
    (hlt : ∀ x ∈ xs ++ [p], x < bp) (hgt : ∀ y ∈ ys, bp < y) :
    ∃ l', base :: l' = xs ++ p :: bp :: ys ∧
      Shape base ((h.setPtr bp (h.ptr p)).setPtr p bp) l' live [bp, p] := by
  obtain ⟨l',hl'⟩ := exists_tail hl (bp :: ys)
  have hperm : l'.Perm (bp :: l) := perm_tail hl' hl
  have hsorted₀ : ((xs ++ [p]) ++ ys).Pairwise (· < ·) := by
    rw [← append_cons,← hl]
    exact hs.sorted
  have hsorted : (xs ++ p :: bp :: ys).Pairwise (· < ·) := by
    rw [append_cons]
    obtain ⟨hxs,hys,hxy⟩ := pairwise_append.1 hsorted₀
    refine pairwise_append.2 ⟨hxs,pairwise_cons.2 ⟨hgt,hys⟩,fun x hx y hy => ?_⟩
    rcases mem_cons.1 hy with rfl | hy
    · exact hlt x hx
    · exact hxy x hx y hy
  refine ⟨l',hl',?_,?_,?_,?_,?_,?_⟩
  · have hleads := hs.leads
    rw [hl] at hleads
    rw [hl',ptr_setPtr,ptr_setPtr]
    exact hleads.insert (hsorted.imp fun h => Nat.ne_of_lt h)
  · rw [hl']
    exact hsorted
  · simpa using hs.size_base
  · exact fun c hc => hs.above c (mem_cons_of_mem _ hc)
  · simp only [size_setPtr,regions_setPtr]
    refine hs.tiles.perm ?_
    exact perm_middle.trans (hperm.symm.append_right live)
  · intro c hc hcu
    simp only [size_setPtr]
    obtain ⟨hcb,hcp⟩ : c ≠ bp ∧ c ≠ p := by simpa using hcu
    have hcl : c ∈ l := by simpa [hcb] using hperm.mem_iff.1 hc
    rw [hperm.mem_iff,mem_cons,not_or]
    refine ⟨fun hend => ?_,hs.gap c hcl (by simp)⟩
    -- a block that ends at `bp` would be the one before it
    have hcbase := hs.base_lt hcl
    have hpos := hs.size_pos hcl
    have hcx : c ∈ xs := by
      have hmem : c ∈ xs ++ p :: ys := hl ▸ mem_cons_of_mem _ hcl
      rcases mem_append.1 hmem with h | h
      · exact h
      · have := hgt c (by simpa [hcp] using h)
        omega
    have hcp' : c < p := (pairwise_append.1 (pairwise_append.1 hsorted₀).1).2.2 c hcx p
      (by simp)
    have hpl : p ∈ l := by
      have hmem : p ∈ base :: l := by simp [hl]
      rcases mem_cons.1 hmem with h | h
      · omega
      · exact h
    have hle := hs.end_le hcl hpl hcp'
    have := hlt p (by simp)
    omega

/-- A node leads from the last address to `base`, or to the next higher address. -/
theorem Shape.next (hs : Shape base h l live unjoined) (ha : a ∈ base :: l) :
    (h.ptr a = base ∧ ∀ c ∈ base :: l, c ≤ a) ∨
      ∃ xs ys, base :: l = xs ++ a :: h.ptr a :: ys ∧ a < h.ptr a ∧ h.ptr a ∈ l ∧
        ∀ c ∈ base :: l, c ≤ a ∨ h.ptr a ≤ c := by
  obtain ⟨xs,ys,hl⟩ := append_of_mem ha
  have hleads := hs.leads
  have hsorted := hs.sorted
  rw [hl] at hleads hsorted
  have hptr := hleads.next_eq
  obtain ⟨-,hay,hxa⟩ := pairwise_append.1 hsorted
  obtain ⟨hay,hys⟩ := pairwise_cons.1 hay
  have hle : ∀ x ∈ xs, x < a := fun x hx => hxa x hx a (by simp)
  cases ys with
  | nil =>
    refine .inl ⟨hptr,fun c hc => ?_⟩
    rw [hl] at hc
    rcases mem_append.1 hc with hc | hc
    · exact (hle c hc).le
    · exact Nat.le_of_eq (mem_singleton.1 hc)
  | cons b ys =>
    rw [headD_cons] at hptr
    have hab := hay b (by simp)
    refine .inr ⟨xs,ys,by rw [hl,hptr],by rwa [hptr],?_,fun c hc => ?_⟩
    · have hbl : b ∈ base :: l := by simp [hl]
      have hbase : base ≤ a := by
        rcases mem_cons.1 ha with rfl | h
        · exact Nat.le_refl _
        · exact (hs.base_lt h).le
      rw [hptr]
      exact mem_of_ne_of_mem (by omega) hbl
    · rw [hl] at hc
      rw [hptr]
      rcases mem_append.1 hc with hc | hc
      · exact .inl (hle c hc).le
      rcases mem_cons.1 hc with rfl | hc
      · exact .inl (Nat.le_refl _)
      rcases mem_cons.1 hc with rfl | hc
      · exact .inr (Nat.le_refl _)
      · exact .inr ((pairwise_cons.1 hys).1 c hc).le

/-- A free block at the end of another one is the next in the list. -/
theorem Shape.ptr_of_end (hs : Shape base h l live unjoined) (ha : a ∈ l)
    (hend : a + headerSize * h.size a ∈ l) : a + headerSize * h.size a = h.ptr a := by
  have hpos := Nat.mul_pos headerSize_pos (hs.size_pos ha)
  have hmem := mem_cons_of_mem base hend
  obtain ⟨-,hlast⟩ | ⟨-,-,-,hlt,hptr,hnext⟩ := hs.next (mem_cons_of_mem base ha)
  · have := hlast _ hmem
    omega
  · have := hs.end_le ha hptr hlt
    have := hnext _ hmem
    omega

/-- A block and the following one, where the latter starts at its end, become one. -/
theorem Shape.merge (hs : Shape base h l live (a :: unjoined)) (hl : base :: l = xs ++ a :: b :: ys)
    (hab : a + headerSize * h.size a = b) (hle : ∀ c ∈ unjoined, c ≤ a) :
    ∃ l', base :: l' = xs ++ a :: ys ∧
      Shape base ((h.setSize a (h.size a + h.size b)).setPtr a (h.ptr b)) l' live unjoined := by
  obtain ⟨l',hl'⟩ := exists_tail hl ys
  have hperm : l.Perm (b :: l') := perm_tail hl hl'
  have hleads := hs.leads
  have hsorted := hs.sorted
  have hnodup := hs.nodup
  rw [hl] at hleads hsorted hnodup
  have hlt : a < b := (pairwise_cons.1 (pairwise_append.1 hsorted).2.1).1 b (by simp)
  have hne : base ≠ a := by
    rintro rfl
    rw [hs.size_base] at hab
    omega
  have hal : a ∈ l' := by
    have hm : a ∈ base :: l' := by simp [hl']
    simpa [hne.symm] using hm
  have hbl : b ∈ l := hperm.mem_iff.2 (by simp)
  have hsub : ∀ c ∈ l', c ∈ l := fun c hc => hperm.mem_iff.2 (mem_cons_of_mem _ hc)
  refine ⟨l',hl',?_,?_,?_,hs.above,?_,?_⟩
  · rw [hl',ptr_setPtr,ptr_setSize]
    exact hleads.remove hnodup
  · rw [hl']
    exact hsorted.sublist ((List.Sublist.cons_cons a (sublist_cons_self b ys)).append_left xs)
  · rw [size_setPtr,size_setSize,update_of_ne hne,hs.size_base]
  · rw [size_setPtr,size_setSize]
    have hperm' : (l ++ live).Perm (a :: b :: (l'.erase a ++ live)) := by
      refine (hperm.append_right live).trans ?_
      refine (((perm_cons_erase hal).cons b).append_right live).trans ?_
      exact .swap ..
    refine ((hs.tiles.perm hperm').join headerSize_pos hab).perm ?_
    exact ((perm_cons_erase hal).append_right live).symm
  · intro c hc hcu
    rw [size_setPtr,size_setSize]
    by_cases hca : c = a
    · subst hca
      rw [update_self,Nat.mul_add,← Nat.add_assoc,hab]
      intro hend
      refine hs.gap b hbl ?_ (hsub _ hend)
      intro hm
      rcases mem_cons.1 hm with hm | hm
      · omega
      · have := hle b hm
        omega
    · rw [update_of_ne hca]
      exact fun hend => hs.gap c (hsub c hc) (by simp [hca,hcu]) (hsub _ hend)

/-- A block is joined with the following one, if that starts at its end. -/
theorem Shape.join (hs : Shape base h l live (a :: unjoined)) (ha : a ∈ base :: l)
    (hne : l ≠ []) (hle : ∀ c ∈ unjoined, c ≤ a) :
    ∃ l', Shape base (join h a) l' live unjoined ∧ ∀ c ∈ base :: l, c ≤ a → c ∈ base :: l' := by
  unfold Umalloc.join
  split
  next hadj =>
    obtain ⟨hptr,hlast⟩ | ⟨xs,ys,hl,hlt,-,-⟩ := hs.next ha
    · -- `a` would be `base`, and the last
      obtain ⟨c,hc⟩ := exists_mem_of_ne_nil l hne
      have := hlast c (mem_cons_of_mem _ hc)
      have := hs.base_lt hc
      omega
    · obtain ⟨l',hl',hs'⟩ := hs.merge hl hadj hle
      refine ⟨l',hs',fun c hc hca => ?_⟩
      rw [hl] at hc
      rw [hl']
      have hcb : c ≠ h.ptr a := by omega
      simpa [hcb] using hc
  next hadj =>
    refine ⟨l,⟨hs.leads,hs.sorted,hs.size_base,hs.above,hs.tiles,fun c hc hcu hend => ?_⟩,
      fun c hc _ => hc⟩
    by_cases hca : c = a
    · subst hca
      exact hadj (hs.ptr_of_end hc hend)
    · exact hs.gap c hc (by simp [hca,hcu]) hend

theorem exists_split {bp : ℕ} {c : List ℕ} (hsorted : (a :: c).Pairwise (· < ·)) (ha : a < bp)
    (hbp : bp ∉ c) : ∃ xs p ys, a :: c = xs ++ p :: ys ∧ (∀ x ∈ xs ++ [p], x < bp) ∧
      ∀ y ∈ ys, bp < y := by
  induction c generalizing a with
  | nil => exact ⟨[],a,[],rfl,by simpa using ha,by simp⟩
  | cons b c ih =>
    obtain ⟨-,hbc⟩ := pairwise_cons.1 hsorted
    simp only [mem_cons,not_or] at hbp
    rcases Nat.lt_or_gt_of_ne hbp.1 with hlt | hgt
    · refine ⟨[],a,b :: c,rfl,by simpa using ha,fun y hy => ?_⟩
      rcases mem_cons.1 hy with rfl | hy
      · exact hlt
      · exact hlt.trans ((pairwise_cons.1 hbc).1 y hy)
    · obtain ⟨xs,p,ys,hc,hxs,hys⟩ := ih hbc hgt hbp.2
      refine ⟨a :: xs,p,ys,by rw [hc]; rfl,?_,hys⟩
      simpa [ha] using hxs

def freeStop (h : Heap) (bp p : ℕ) : Bool :=
  (p < bp ∧ bp < h.ptr p) ∨ (h.ptr p ≤ p ∧ (p < bp ∨ bp < h.ptr p))

theorem freeLoop_eq_walk (h : Heap) (bp fuel p : ℕ) :
    freeLoop h bp fuel p = walk h.ptr (freeStop h bp) fuel p := by
  induction fuel generalizing p with
  | zero => rfl
  | succ fuel ih =>
    rw [freeLoop,walk,ih]
    have hstop : freeStop h bp p ↔
        (bp > p ∧ bp < h.ptr p) ∨ (p ≥ h.ptr p ∧ (bp > p ∨ bp < h.ptr p)) := decide_eq_true_iff
    by_cases h1 : bp > p ∧ bp < h.ptr p
    · rw [if_pos h1,if_pos (hstop.2 (.inl h1))]
    rw [if_neg h1]
    by_cases h2 : p ≥ h.ptr p ∧ (bp > p ∨ bp < h.ptr p)
    · rw [if_pos h2,if_pos (hstop.2 (.inr h2))]
    · rw [if_neg h2,if_neg fun h => (hstop.1 h).elim h1 h2]

section
variable (hs : Shape base h l live unjoined)
include hs

/-- The loop of `free` ends at the last node before the block. -/
theorem Shape.freeLoop_eq (hf : h.freep ∈ base :: l)
    (hbase : base < bp) (hp : p ∈ base :: l) (hlt : p < bp)
    (hgt : ∀ c ∈ base :: l, c ≤ p ∨ bp < c) : freeLoop h bp h.fuel h.freep = some p := by
  rw [freeLoop_eq_walk]
  refine hs.leads.walk_loop rfl hf hp (fun y hy => ?_) ?_
  · have hpy := hgt y hy
    rw [freeStop,decide_eq_true_iff]
    obtain ⟨hptr,hlast⟩ | ⟨-,-,-,hyn,hptr,hnext⟩ := hs.next hy
    · have := hlast p hp
      have := hlast base (by simp)
      omega
    · have := hnext p hp
      have := hgt _ (mem_cons_of_mem base hptr)
      omega
  · have hlen : (l ++ live).length ≤ _ := hs.tiles.length_le headerSize_pos
    simp only [length_append] at hlen
    simp only [length_cons,fuel]
    omega

theorem Shape.setFreep (p : ℕ) : Shape base (h.setFreep p) l live unjoined :=
  ⟨hs.leads,hs.sorted,hs.size_base,hs.above,hs.tiles,hs.gap⟩

theorem Shape.next_mem (ha : a ∈ base :: l) : h.ptr a ∈ base :: l := by
  obtain ⟨hptr,-⟩ | ⟨-,-,-,-,hptr,-⟩ := hs.next ha
  · simp [hptr]
  · exact mem_cons_of_mem _ hptr

theorem Shape.not_mem (ha : a ∈ live) : a ∉ base :: l := by
  have hnodup := hs.tiles.nodup headerSize_pos
  have hbase := hs.above a ha
  intro hmem
  rcases mem_cons.1 hmem with rfl | hmem
  · omega
  · exact (nodup_append.1 hnodup).2.2 a hmem a ha rfl

end

@[simp] theorem regions_join (h : Heap) (p : ℕ) : (Umalloc.join h p).regions = h.regions := by
  unfold Umalloc.join
  split <;> rfl

theorem mem_setPtr_of_ne (h : Heap) {p q c : ℕ} (hne : c ≠ p) : (h.setPtr p q).mem c = h.mem c :=
  update_of_ne hne _ _

theorem mem_setSize_of_ne (h : Heap) {p n c : ℕ} (hne : c ≠ p) : (h.setSize p n).mem c = h.mem c :=
  update_of_ne hne _ _

theorem mem_join_of_ne (h : Heap) {p c : ℕ} (hne : c ≠ p) :
    (Umalloc.join h p).mem c = h.mem c := by
  unfold Umalloc.join
  split
  · rw [mem_setPtr_of_ne _ hne,mem_setSize_of_ne _ hne]
  · rfl

/-- The header at `x` is `base`, or it lies in the regions. -/
def Inside (base : ℕ) (rs : List (ℕ × ℕ)) (x : ℕ) : Prop :=
  x = base ∨ ∀ y, x ≤ y → y < x + headerSize → ∃ r ∈ rs, r.1 ≤ y ∧ y < r.1 + r.2

theorem Shape.inside (hs : Shape base h l live unjoined) (ha : a ∈ base :: l ++ live) :
    Inside base h.regions a := by
  rcases mem_cons.1 ha with rfl | ha
  · exact .inl rfl
  · refine .inr fun y hy hy' => (hs.tiles.cover y).2 ⟨a,ha,hy,?_⟩
    have := Nat.mul_le_mul_left headerSize (Nat.succ_le_of_lt (hs.tiles.pos a ha))
    omega

theorem Shape.free (hs : Shape base h l (bp :: live) []) (hf : h.freep ∈ base :: l) :
    ∃ h' l', Umalloc.free h (bp + headerSize) = some h' ∧ Shape base h' l' live [] ∧
      h'.freep ∈ base :: l' ∧ h'.regions = h.regions ∧ (∀ a ∈ live, h'.size a = h.size a) ∧
      ∀ x, ¬ Inside base h.regions x → h'.mem x = h.mem x := by
  have hbase : base < bp := hs.above bp (by simp)
  have hbp : bp ∉ base :: l := hs.not_mem (by simp)
  obtain ⟨xs,p,ys,hl,hlt,hgt⟩ := exists_split hs.sorted hbase
    (fun h => hbp (mem_cons_of_mem _ h))
  have hp : p ∈ base :: l := by simp [hl]
  have hpbp := hlt p (by simp)
  have hbetween : ∀ c ∈ base :: l, c ≤ p ∨ bp < c := by
    intro c hc
    have hsorted := hs.sorted
    rw [hl] at hc hsorted
    rcases mem_append.1 hc with hc | hc
    · exact .inl ((pairwise_append.1 hsorted).2.2 c hc p (by simp)).le
    rcases mem_cons.1 hc with rfl | hc
    · exact .inl (Nat.le_refl _)
    · exact .inr (hgt c hc)
  have hptr : h.ptr p ≠ bp := fun h => hbp (h ▸ hs.next_mem hp)
  -- into the list, then joined with the next block, then with the one before
  obtain ⟨l1,hl1,hs1⟩ := hs.link hl hlt hgt
  have hbp1 : bp ∈ base :: l1 := by simp [hl1]
  have hp1 : p ∈ base :: l1 := by simp [hl1]
  have hne : ∀ l', bp ∈ base :: l' → l' ≠ [] := by
    rintro l' h rfl
    simp only [mem_singleton] at h
    omega
  obtain ⟨l2,hs2,hkeep2⟩ := hs1.join hbp1 (hne _ hbp1) (by simpa using hpbp.le)
  have hbp2 := hkeep2 bp hbp1 (Nat.le_refl _)
  obtain ⟨l3,hs3,hkeep3⟩ := hs2.join (hkeep2 p hp1 hpbp.le) (hne _ hbp2) (by simp)
  have hmem : ∀ x, x ≠ p → x ≠ bp → (Umalloc.join (Umalloc.join ((h.setPtr bp (h.ptr p)).setPtr p bp)
      bp) p).mem x = h.mem x := by
    intro x hxp hxb
    rw [mem_join_of_ne _ hxp,mem_join_of_ne _ hxb,mem_setPtr_of_ne _ hxp,mem_setPtr_of_ne _ hxb]
  refine ⟨_,l3,?_,hs3.setFreep p,?_,?_,fun a ha => ?_,fun x hx => ?_⟩
  · rw [Umalloc.free,Nat.add_sub_cancel,hs.freeLoop_eq hf hbase hp hpbp hbetween,Option.map_some,
      insertAt_eq hpbp hptr]
  · exact hkeep3 p (hkeep2 p hp1 hpbp.le) (Nat.le_refl _)
  · simp
  · have hap : a ≠ p := fun h => hs.not_mem (mem_cons_of_mem _ ha) (h ▸ hp)
    have hab : a ≠ bp := fun h => hs1.not_mem ha (h ▸ hbp1)
    exact congrArg Header.size (hmem a hap hab)
  · exact hmem x (fun h => hx (h ▸ hs.inside (mem_append_left _ hp)))
      (fun h => hx (h ▸ hs.inside (by simp)))

end Shape

end Xv6.Umalloc
