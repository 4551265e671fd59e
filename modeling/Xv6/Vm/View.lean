import Xv6.Lib.Patch
import Xv6.Vm.Alloc

/-! # Writing through a directory

What `loaduvm` and `copyout` write, as it is read through the directory: the bytes are there, and no
others are different. -/
namespace Xv6.Vm
open Patch (patch patch_in patch_out patch_append patch_nil)
open Result List Option

variable {L : Layout} {k k₀ : Kmem} {d : Pgdir} {e : Pte} {j off va v sz offset : ℕ}
  {buf file : List UInt8} {f : ℕ → Option UInt8}

theorem Owned.byte_memmove (ho : Owned L k d) (off : ℕ) (hj : j < NUSER) (he : d.pte j = some e)
    (hlen : off + buf.length ≤ PGSIZE) (hva : va < KERNBASE) :
    d.byte (k.memmove (e.addr + off) buf) va =
      patch (d.byte k) (j * PGSIZE + off) (buf.map some) va := by
  have halign := (ho.page (Owned.user_mem hj he)).aligned
  have hpage : va = va / PGSIZE * PGSIZE + va % PGSIZE := (Nat.div_add_mod' va PGSIZE).symm
  have hmod : va % PGSIZE < PGSIZE := Nat.mod_lt va (by decide)
  by_cases hpos : va / PGSIZE = j
  · rw [byte_of_pte ho.backed (hpos.symm ▸ he)]
    by_cases hin : off ≤ va % PGSIZE ∧ va % PGSIZE < off + buf.length
    · obtain ⟨i,hi⟩ := Nat.exists_eq_add_of_le hin.1
      have hib : i < buf.length := by omega
      have hva' : va = j * PGSIZE + off + i := by
        rw [hpage,hpos,hi,Nat.add_assoc]
      rw [hi,← Nat.add_assoc]
      conv_rhs => rw [hva',patch_in (by rwa [length_map]),getElem_map]
      refine congrArg some ((if_pos ⟨Nat.le_add_right _ _,by omega⟩).trans ?_)
      rw [Nat.add_sub_cancel_left,getD_eq_getElem?_getD,List.getElem?_eq_getElem hib,
        getD_some]
    · rw [patch_out,byte_of_pte ho.backed (hpos.symm ▸ he)]
      · refine congrArg some (if_neg fun hc => hin ?_)
        omega
      · rw [hpage,hpos,length_map]
        omega
  · rw [patch_out]
    · refine byte_congr rfl fun e' he' x hx => if_neg fun hc => hpos ?_
      rw [present_eq ho.backed] at he'
      have halign' := (ho.page (Owned.user_mem (page_lt_NUSER hva) he')).aligned
      refine ho.user_inj (page_lt_NUSER hva) hj he' he ?_
      unfold PGSIZE at *
      omega
    · rw [length_map]
      unfold PGSIZE at *
      omega

theorem Made.memmove (h : Made k₀ k d) (hk0 : Distinct L k₀.free) (off : ℕ) (hj : j < NUSER)
    (he : d.pte j = some e) (hlen : off + buf.length ≤ PGSIZE) :
    Made k₀ (k.memmove (e.addr + off) buf) d where
  backed := h.backed
  pages := h.pages
  outside := by
    have hmem := h.pages_sub (Owned.user_mem hj he)
    exact h.outside.trans (Outside.memmove off (hk0.page _ hmem).aligned hmem k hlen)

/-- What `readi` gives where it gives all it is asked for. -/
theorem readi_whole {n : ℕ} (h : readi file off n = some buf) (hlen : buf.length = n) :
    buf = (file.drop off).take n ∧ off + n ≤ file.length := by
  unfold readi at h
  split at h
  next => cases h
  next hle =>
    cases h
    rw [length_take,length_drop] at hlen
    exact ⟨rfl,by omega⟩

/-- The loop of `loaduvm` from the page `t` of the segment on. -/
theorem loadLoop_spec {E : Trap → Prop} (hk0 : Distinct L k₀.free) (hfile : file.length < 2 ^ 32)
    (hoff : offset < 2 ^ 32)
    (hpte : ∀ j, v ≤ j → j * PGSIZE < v * PGSIZE + sz → j < NUSER ∧ d.pte j ≠ none) (c t : ℕ)
    (hc : sz ≤ (t + c) * PGSIZE) (h : Made k₀ k d)
    (hread : t = 0 ∨ offset + min (t * PGSIZE) sz ≤ file.length)
    (hbytes : ∀ va, va < KERNBASE → d.byte k va =
      patch f (v * PGSIZE) (((file.drop offset).take (min (t * PGSIZE) sz)).map some) va) :
    Sat E (fun r => Made k₀ r.1 d ∧ (r.2 = true → (sz = 0 ∨ offset + sz ≤ file.length) ∧
        ∀ va, va < KERNBASE → d.byte r.1 va =
          patch f (v * PGSIZE) (((file.drop offset).take sz).map some) va))
      (loadLoop d file (v * PGSIZE) offset sz (pages (t * PGSIZE) sz) k) := by
  have hend : ∀ {t}, sz ≤ t * PGSIZE → t = 0 → sz = 0 := by
    rintro t hle rfl
    rwa [Nat.zero_mul,Nat.le_zero] at hle
  induction c generalizing t k with
  | zero =>
    rw [Nat.add_zero] at hc
    rw [pages_nil hc]
    rw [Nat.min_eq_right hc] at hbytes hread
    exact sat_ok.2 ⟨h,fun _ => ⟨hread.imp_left (hend hc),hbytes⟩⟩
  | succ c ih =>
    by_cases hlt : t * PGSIZE < sz
    · rw [pages_cons hlt,loadLoop,← Nat.add_mul]
      obtain ⟨hj,hne⟩ := hpte (v + t) (Nat.le_add_right v t) (by rw [Nat.add_mul]; omega)
      obtain ⟨e,he⟩ := ne_none_iff_exists'.1 hne
      have hwalk : d.walk ((v + t) * PGSIZE) = true := by
        rw [walk_iff,PDX_page]
        exact h.backed _ hne
      have hwrap : (offset + t * PGSIZE) % 2 ^ 32 = offset + t * PGSIZE := by
        refine Nat.mod_eq_of_lt ?_
        rcases hread with h0 | hle
        · rw [h0,Nat.zero_mul]
          exact hoff
        · omega
      rw [if_pos hwalk,entry_page,he,hwrap]
      dsimp only [elim_some]
      generalize hn : (if sz - t * PGSIZE < PGSIZE then sz - t * PGSIZE else PGSIZE) = n
      have hnext : min ((t + 1) * PGSIZE) sz = t * PGSIZE + n := by
        rw [Nat.add_one_mul,← hn]
        split <;> omega
      have hnle : n ≤ PGSIZE := by
        rw [← hn]
        split <;> omega
      have hpos : 0 < n := by
        rw [← hn]
        split <;> unfold PGSIZE at * <;> omega
      split
      next => exact sat_ok.2 ⟨h,by rintro ⟨⟩⟩
      next buf hbuf =>
        have hlenle : buf.length ≤ PGSIZE := by
          unfold readi at hbuf
          split at hbuf
          next => cases hbuf
          next =>
            cases hbuf
            rw [length_take]
            omega
        have hmade := h.memmove hk0 0 hj he (by rwa [Nat.zero_add])
        rw [Nat.add_zero] at hmade
        rw [← Nat.add_one_mul]
        split
        next hlen =>
          obtain ⟨rfl,hle⟩ := readi_whole hbuf hlen
          refine ih (t + 1) (by rwa [Nat.add_assoc,Nat.add_comm 1]) hmade
            (.inr ?_) fun va hva => ?_
          · rw [hnext,← Nat.add_assoc]
            exact hle
          · have hwrite := (h.owned hk0).byte_memmove 0 hj he (by rwa [Nat.zero_add]) hva
            rw [Nat.add_zero,Nat.add_zero] at hwrite
            have hdone : (((file.drop offset).take (t * PGSIZE)).map some).length = t * PGSIZE := by
              rw [length_map,length_take,length_drop]
              omega
            rw [hwrite,hnext,take_add,map_append,← patch_append,hdone,drop_drop,
              Nat.add_mul]
            refine Patch.patch_congr ?_
            rw [hbytes va hva,Nat.min_eq_left hlt.le]
        next => exact sat_ok.2 ⟨hmade,by rintro ⟨⟩⟩
    · have hge := Nat.not_lt.1 hlt
      rw [pages_nil hge]
      rw [Nat.min_eq_right hge] at hbytes hread
      exact sat_ok.2 ⟨h,fun _ => ⟨hread.imp_left (hend hge),hbytes⟩⟩

theorem loaduvm_spec {E : Trap → Prop} (hk0 : Distinct L k₀.free) (hfile : file.length < 2 ^ 32)
    (hoff : offset < 2 ^ 32)
    (hpte : ∀ j, v ≤ j → j * PGSIZE < v * PGSIZE + sz → j < NUSER ∧ d.pte j ≠ none)
    (h : Made k₀ k d) :
    Sat E (fun r => Made k₀ r.1 d ∧ (r.2 = true → (sz = 0 ∨ offset + sz ≤ file.length) ∧
        ∀ va, va < KERNBASE → d.byte r.1 va =
          patch (d.byte k) (v * PGSIZE) (((file.drop offset).take sz).map some) va))
      (loaduvm k d (v * PGSIZE) file offset sz) := by
  rw [loaduvm,if_neg (by rw [Nat.mul_mod_left]; exact fun hne => hne rfl)]
  have hloop := loadLoop_spec (E := E) (f := d.byte k) hk0 hfile hoff hpte sz 0
    (by unfold PGSIZE; omega) h (.inl rfl) (by simp)
  rwa [Nat.zero_mul] at hloop

/-- After `copyout` of `buf` to `va`: all of it is in user pages. -/
structure Written (d : Pgdir) (k : Kmem) (va : ℕ) (buf : List UInt8) (k' : Kmem) : Prop where
  reach : ∀ x, va ≤ x → x < va + buf.length →
    x < KERNBASE ∧ ∃ e, d.pte (x / PGSIZE) = some e ∧ e.u = true
  bytes : ∀ x, x < KERNBASE → d.byte k' x = patch (d.byte k) va (buf.map some) x

theorem written_nil (d : Pgdir) (k : Kmem) (va : ℕ) : Written d k va [] k := by
  refine ⟨fun x h1 h2 => ?_,fun x _ => ?_⟩
  · rw [length_nil] at h2
    omega
  · rw [map_nil,patch_nil]

theorem Written.cons {k1 k' : Kmem} {n : ℕ} (h₁ : Written d k va (buf.take n) k1)
    (h : Written d k1 (va + n) (buf.drop n) k') : Written d k va buf k' := by
  have hlen : (buf.take n).length = min n buf.length := length_take
  refine ⟨fun x h1 h2 => ?_,fun x hx => ?_⟩
  · by_cases hx : x < va + n
    · exact h₁.reach x h1 (by omega)
    · exact h.reach x (by omega) (by rw [length_drop]; omega)
  · rw [h.bytes x hx,Patch.patch_congr (h₁.bytes x hx)]
    by_cases hn : n ≤ buf.length
    · have hdone : ((buf.take n).map some).length = n := by rw [length_map,hlen,Nat.min_eq_left hn]
      conv_rhs => rw [← take_append_drop n buf,map_append,← patch_append,hdone]
    · rw [drop_eq_nil_of_le (by omega),map_nil,patch_nil,take_of_length_le (by omega)]

theorem userPage_some {pa0 : ℕ} (h : userPage d va = some pa0) :
    ∃ e, d.pte (va / PGSIZE) = some e ∧ e.u = true ∧ e.addr = pa0 := by
  obtain ⟨e,he,hu⟩ := bind_eq_some_iff.1 h
  rw [PGROUNDDOWN,entry_page] at he
  split at hu
  next hue => exact ⟨e,he,hue,Option.some.inj hu⟩
  next => cases hu

theorem copyLoopOut_spec {E : Trap → Prop} {fuel : ℕ} (hE : E .null) (hk0 : Distinct L k₀.free)
    (hkern : ∀ j, NUSER ≤ j → j < 2 ^ 20 → ∀ e, d.pte j = some e → e.u = false) (h : Made k₀ k d)
    (hf : buf.length ≤ fuel) (hva : va < 2 ^ 32) :
    Sat E (fun r => Made k₀ r.1 d ∧ (r.2 = true → Written d k va buf r.1))
      (copyLoopOut d fuel k va buf) := by
  induction fuel generalizing k va buf with
  | zero =>
    rw [length_eq_zero_iff.1 (Nat.le_zero.1 hf)]
    exact sat_ok.2 ⟨h,fun _ => written_nil d k va⟩
  | succ fuel ih =>
    unfold copyLoopOut
    split
    next hbuf =>
      rw [hbuf]
      exact sat_ok.2 ⟨h,fun _ => written_nil d k va⟩
    next hbuf =>
      have hpos : 0 < buf.length := length_pos_iff.2 hbuf
      refine (uva2ka_spec (.inl hE)).bind fun o ho => ?_
      split
      next => exact sat_pure.2 ⟨h,nofun⟩
      next pa0 =>
        obtain ⟨e,he,hu,rfl⟩ := userPage_some ho.symm
        have hj : va / PGSIZE < NUSER := by
          by_contra hge
          have hfalse := hkern _ (Nat.not_lt.1 hge) (by unfold PGSIZE; omega) e he
          rw [hu] at hfalse
          cases hfalse
        have hoff : va - PGROUNDDOWN va = va % PGSIZE := by
          unfold PGROUNDDOWN PGSIZE
          omega
        have hmod : va % PGSIZE < PGSIZE := Nat.mod_lt va (by decide)
        have hwrap : (PGROUNDDOWN va + PGSIZE) % 2 ^ 32 = va + (PGSIZE - va % PGSIZE) := by
          rw [NUSER_eq] at hj
          unfold PGROUNDDOWN PGSIZE at *
          omega
        rw [hoff,hwrap]
        generalize hn : min (PGSIZE - va % PGSIZE) buf.length = n
        have hlen : (buf.take n).length = n := by
          rw [length_take]
          omega
        have hmade : Made k₀ (k.memmove (e.addr + va % PGSIZE) (buf.take n)) d :=
          h.memmove hk0 (va % PGSIZE) hj he (by omega)
        have hfirst : Written d k va (buf.take n) (k.memmove (e.addr + va % PGSIZE) (buf.take n)) := by
          refine ⟨fun x h1 h2 => ?_,fun x hx => ?_⟩
          · have hsame : x / PGSIZE = va / PGSIZE := by
              unfold PGSIZE at *
              omega
            rw [hsame]
            refine ⟨?_,e,he,hu⟩
            rw [NUSER_eq] at hj
            unfold KERNBASE PGSIZE at *
            omega
          · rw [(h.owned hk0).byte_memmove _ hj he (by omega) hx,Nat.div_add_mod']
        refine (ih hmade (by rw [length_drop]; omega) ?_).mono fun r hr =>
          ⟨hr.1,fun hdone => ?_⟩
        · rw [NUSER_eq] at hj
          omega
        · have hrest := hr.2 hdone
          by_cases hall : n = buf.length
          · rw [drop_eq_nil_of_le hall.ge] at hrest
            refine hfirst.cons ?_
            rw [drop_eq_nil_of_le hall.ge]
            exact ⟨fun x h1 h2 => absurd h2 (by rw [length_nil]; omega),fun x hx => by
              rw [hrest.bytes x hx,map_nil,patch_nil,patch_nil]⟩
          · rw [show PGSIZE - va % PGSIZE = n by omega] at hrest
            exact hfirst.cons hrest

end Xv6.Vm
