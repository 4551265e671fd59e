import Xv6.Fs.NamexSpec
import Xv6.Mkfs.Final

/-! # The state in which the first process starts -/
namespace Xv6
open Conc Mkfs Option

/-- Process 0 runs on the disk `d` with nothing open but its working directory, the root,
which `userinit` has looked up. -/
def started (d : Disk) : KCfg where
  st :=
    { disk := .ofFun d
      cache := .ofFun fun _ => none
      writes := []
      sb := sb
      log := ⟨logstart,nlog,0,false,[]⟩
      inode := .ofFun fun k => if k = 0 then ⟨ROOTINO,1,false,default⟩ else default
      file := .ofFun fun _ => default
      proc := .ofFun fun p => if p = 0 then ⟨some 0,fun _ => none,false⟩ else default
      input := [] }
  held := []

/-- The directories of a file system that is at rest: every entry stands for an inode that
is not free, and inodes without links are in use. -/
structure DirTree (v : View) : Prop where
  core : Core v
  root : files v.disk ROOTINO ≠ none
  aligned : ∀ i n, files v.disk i = some n → n.type = T_DIR → n.size % Dirent.sizeof = 0
  alloc : ∀ i n j, files v.disk i = some n → n.type = T_DIR → j < n.count →
    (n.entry j).inum ≠ 0 → files v.disk (n.entry j).inum.toNat ≠ none
  quiet : Quiet v

theorem DirTree.tree {v : View} (h : DirTree v) (E : Stop Lock Panic → Prop) : Tree E v where
  aligned := fun i n hn hd hc => absurd (h.aligned i n hn hd) hc
  range := by
    intro i n j hn hd hj hlive
    obtain ⟨m,hm⟩ := ne_none_iff_exists'.mp (h.alloc i n j hn hd hj hlive)
    exact (files_eq_some hm).1
  alloc := .inr ⟨h.quiet,h.alloc⟩

section Boot
variable {d : Disk} {names : List Name}

theorem holds_started {k i : ℕ} : Holds (started d).st.view k i ↔ k = 0 ∧ i = ROOTINO := by
  constructor
  · rintro ⟨-,href,hi⟩
    change 0 < (if k = 0 then (⟨ROOTINO,1,false,default⟩ : Inode) else default).ref at href
    change (if k = 0 then (⟨ROOTINO,1,false,default⟩ : Inode) else default).inum = i at hi
    by_cases hk : k = 0
    · rw [if_pos hk] at hi
      exact ⟨hk,hi.symm⟩
    · rw [if_neg hk] at href
      exact absurd href (Int.lt_irrefl 0)
  · rintro ⟨rfl,rfl⟩
    exact ⟨by decide,Int.one_pos,rfl⟩

theorem owner_started : (started d).owner = held 0 ∅ := by
  rw [held_empty]
  rfl

theorem core_of_sound (hsb : Superblock.ofBlock (d 1) = sb) (hs : Sound (inodeAt d) d) :
    Core (started d).st.view where
  ready := ⟨rfl,hsb,rfl,rfl,by decide,show 0 + 0 < nlog by decide,nofun,nofun⟩
  sound := hs
  ref := by
    intro k _
    change 0 ≤ (if k = 0 then (⟨ROOTINO,1,false,default⟩ : Inode) else default).ref
    split
    · exact Int.one_nonneg
    · exact le_refl (0 : ℤ)
  inum := by
    intro k i hk
    rw [(holds_started.mp hk).2]
    decide
  uniq := by
    intro k k' i hk hk'
    rw [(holds_started.mp hk).1,(holds_started.mp hk').1]
  copy := by
    intro k i hk hv
    obtain ⟨rfl,-⟩ := holds_started.mp hk
    cases hv

section
variable (h : Fresh names d)
include h

theorem core_started : Core (started d).st.view :=
  core_of_sound h.superblock h.sound

/-- The only directory of a new file system is the root. -/
theorem dir_fresh {i : ℕ} {n : Node} (hn : files d i = some n)
    (hd : n.type = T_DIR) : i = ROOTINO := by
  by_contra hne
  have hne1 : i ≠ 1 := hne
  by_cases hi : 2 ≤ i ∧ i < names.length + 2
  · obtain ⟨m,hm,htype,-⟩ := h.file i hi.1 hi.2
    rw [hn] at hm
    obtain rfl := Option.some.inj hm
    rw [hd] at htype
    exact absurd htype (by decide)
  · rw [h.other i hne1 (by omega)] at hn
    cases hn

/-- Every inode of a new file system has a link. -/
theorem nlink_fresh {i : ℕ} {n : Node} (hn : files d i = some n) : n.nlink = 1 := by
  by_cases h1 : i = 1
  · subst h1
    obtain ⟨r,hr,-,hl,-⟩ := h.root
    rw [hn] at hr
    rw [Option.some.inj hr]
    exact hl
  · by_cases hi : 2 ≤ i ∧ i < names.length + 2
    · obtain ⟨m,hm,-,hl⟩ := h.file i hi.1 hi.2
      rw [hn] at hm
      rw [Option.some.inj hm]
      exact hl
    · rw [h.other i h1 (by omega)] at hn
      cases hn

theorem alloc_fresh {r : Node} {j : ℕ} (hr : files d ROOTINO = some r)
    (hlive : (r.entry j).inum ≠ 0) : files d (r.entry j).inum.toNat ≠ none := by
  obtain ⟨r',hr',-,-,-,-,hentry,hfree⟩ := h.root
  have hr'' : files d ROOTINO = some r' := hr'
  rw [hr] at hr''
  obtain rfl := Option.some.inj hr''
  by_cases hj : j < names.length + 2
  · have he := hentry j hj
    by_cases hj2 : j < 2
    · -- "." and ".."
      have hroot : (r.entry j).inum = 1 := by
        obtain rfl | rfl : j = 0 ∨ j = 1 := by omega
        · exact congrArg Dirent.inum (Option.some.inj he)
        · exact congrArg Dirent.inum (Option.some.inj he)
      rw [hroot]
      change files d 1 ≠ none
      rw [hr']
      simp
    · obtain ⟨x,rfl⟩ : ∃ x, j = x + 2 := ⟨j - 2,by omega⟩
      have hx : x < names.length := by omega
      have hnum : (r.entry (x + 2)).inum = UInt16.ofNat (x + 2) := by
        simp only [rootEntries,List.getElem?_cons_succ,List.getElem?_mapIdx,
          List.getElem?_eq_getElem hx,map_some,Option.some.injEq] at he
        rw [he]
        rfl
      obtain ⟨n,hn,-⟩ := h.file (x + 2) (by omega) (by omega)
      have hlt := (files_eq_some hn).1
      have hN : NINODES = 200 := rfl
      rw [hnum,UInt16.toNat_ofNat_of_lt' (by rw [UInt16.size]; omega),hn]
      simp
  · exact absurd (hfree j (by omega)) hlive

theorem dirTree_started : DirTree (started d).st.view where
  core := core_started h
  root := by
    obtain ⟨r,hr,-⟩ := h.root
    exact fun hc => by
      have : files d 1 = none := hc
      rw [hr] at this
      cases this
  aligned := by
    intro i n hn hd
    obtain rfl := dir_fresh h hn hd
    obtain ⟨r,hr,-,-,ha,-⟩ := h.root
    have hn' : files d 1 = some n := hn
    rw [hr] at hn'
    rw [← Option.some.inj hn']
    exact ha
  alloc := by
    intro i n j hn hd _ hlive
    obtain rfl := dir_fresh h hn hd
    exact alloc_fresh h hn hlive
  quiet := by
    intro i n hn h0
    rw [nlink_fresh h hn] at h0
    exact absurd h0 (by decide)

end

theorem startsAt_started (path : List UInt8) : Fs.StartsAt (started d).st.view 0 path ROOTINO := by
  unfold Fs.StartsAt
  split
  · rfl
  · exact holds_started.mpr ⟨rfl,rfl⟩

theorem card_usedSlots_started : (usedSlots (started d).st.view).card ≤ 1 := by
  have hsub : usedSlots (started d).st.view ⊆ {0} := fun k hk =>
    Finset.mem_singleton.mpr (holds_started.mp (mem_usedSlots.mp hk)).1
  exact Finset.card_le_card hsub

end Boot

def sample : Disk := (main [([102],[])]).getD fun _ => Bytes.zero

theorem main_sample : main [([102],[])] = some sample := by
  have h : (main [([102],[])]).isSome = true := by decide +kernel
  obtain ⟨d,hd⟩ := isSome_iff_exists.mp h
  unfold sample
  rw [hd]
  rfl

theorem fresh_sample : Fresh [[102]] sample :=
  main_fresh main_sample (by decide) (by decide)

end Xv6
