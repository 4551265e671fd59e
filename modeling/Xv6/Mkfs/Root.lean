import Xv6.Fs.Entries
import Xv6.Mkfs.Spec

/-! # What the image of `mkfs.c` contains

The root directory with its entries "." and "..", and the files of the command line
in the inodes from 2 on. -/
namespace Xv6
open List Option Dirent

namespace Node
variable {n : Node}

theorem write_nil : n.write n.size [] = n := by
  refine Node.ext rfl rfl rfl rfl (Nat.max_self _) (funext fun x => ?_)
  change (if n.size ≤ x ∧ x < n.size + 0 then _ else n.data x) = n.data x
  rw [if_neg (by omega)]

/-- What is written at the end goes on where the last write has ended. -/
theorem write_write (a b : List UInt8) :
    (n.write n.size a).write (n.write n.size a).size b = n.write n.size (a ++ b) := by
  have hsize : (n.write n.size a).size = n.size + a.length := Nat.max_eq_right (Nat.le_add_right ..)
  refine Node.ext rfl rfl rfl rfl ?_ (funext fun x => ?_)
  · change max (n.write n.size a).size ((n.write n.size a).size + b.length)
      = max n.size (n.size + (a ++ b).length)
    rw [hsize,length_append]
    omega
  · rw [hsize]
    change (if n.size + a.length ≤ x ∧ x < n.size + a.length + b.length then
        b.getD (x - (n.size + a.length)) 0
      else if n.size ≤ x ∧ x < n.size + a.length then a.getD (x - n.size) 0 else n.data x)
      = if n.size ≤ x ∧ x < n.size + (a ++ b).length then (a ++ b).getD (x - n.size) 0 else n.data x
    rw [length_append]
    by_cases hlo : n.size ≤ x ∧ x < n.size + a.length
    · rw [if_neg (by omega),if_pos hlo,if_pos (by omega),getD_append _ _ _ _ (by omega)]
    · by_cases hhi : n.size + a.length ≤ x ∧ x < n.size + a.length + b.length
      · rw [if_pos hhi,if_pos (by omega),getD_append_right _ _ _ _ (by omega),
          Nat.sub_sub]
      · rw [if_neg hhi,if_neg hlo,if_neg (by omega)]

end Node

namespace Mkfs
open Function Fs

/-- `main` before the size of the root directory is rounded up. -/
def build (files : List (Name × List UInt8)) : Option Image := do
  let (rootino,m) := ialloc T_DIR blank
  let m ← iappend rootino (dirent rootino dot) m
  let m ← iappend rootino (dirent rootino dotdot) m
  addFiles files m

theorem build_eq_some {fs : List (Name × List UInt8)} {m : Image} : build fs = some m ↔
    ∃ m₁, iappend 1 (dirent 1 dot) (ialloc T_DIR blank).2 = some m₁ ∧
      ∃ m₂, iappend 1 (dirent 1 dotdot) m₁ = some m₂ ∧ addFiles fs m₂ = some m := by
  change (do
    let m₁ ← iappend 1 (dirent 1 dot) (ialloc T_DIR blank).2
    let m₂ ← iappend 1 (dirent 1 dotdot) m₁
    addFiles fs m₂) = some m ↔ _
  simp only [bind_eq_bind,bind_eq_some_iff]

theorem main_eq (fs : List (Name × List UInt8)) :
    main fs = (build fs).bind fun m => balloc m.freeblock (fixRootSize m.disk) := by
  simp [main,build,bind_assoc]

def shortName (name : Name) : Name := if name.head? = some 95 then name.tail else name

def rootEntries (names : List Name) : List Dirent :=
  named dot 1 :: named dotdot 1 ::
    names.mapIdx fun i name => named (shortName name) (i + 2)

theorem length_rootEntries (names : List Name) : (rootEntries names).length = names.length + 2 := by
  simp [rootEntries]

theorem rootEntries_append (names : List Name) (name : Name) : rootEntries (names ++ [name])
    = rootEntries names ++ [named (shortName name) (names.length + 2)] := by
  simp [rootEntries,mapIdx_append]

def fileNode (contents : List UInt8) : Node :=
  ⟨T_FILE,0,0,1,contents.length,fun x => contents.getD x 0⟩

theorem write_newNode (p : List UInt8) :
    (newNode T_FILE).write (newNode T_FILE).size p = fileNode p := by
  refine Node.ext rfl rfl rfl rfl ?_ (funext fun x => ?_)
  · change max 0 (0 + p.length) = p.length
    omega
  · change (if 0 ≤ x ∧ x < 0 + p.length then p.getD (x - 0) 0 else 0) = p.getD x 0
    by_cases hx : x < p.length
    · rw [if_pos (by omega),Nat.sub_zero]
    · rw [if_neg (by omega),getD_eq_default _ _ (by omega)]

theorem blocksFor_mono {a b : ℕ} (h : a ≤ b) : blocksFor a ≤ blocksFor b := by
  have hB : BSIZE = 512 := rfl
  unfold blocksFor
  rw [hB]
  split <;> split <;> omega

section Copy
variable {m m' : Image} {i fuel : ℕ} {p : List UInt8} {n : Node}

theorem take_ne_nil (hp : p ≠ []) : p.take BSIZE ≠ [] := by
  rw [Ne,take_eq_nil_iff,not_or]
  exact ⟨by decide,hp⟩

/-- The loop that copies a file appends its bytes. -/
theorem Image.Ok.copyFile (h : m.Ok) (hn : files m.full i = some n) (hf : p.length ≤ fuel)
    (hc : Mkfs.copyFile i fuel p m = some m') :
    m'.Ok ∧ m'.freeinode = m.freeinode ∧
      files m'.full = update (files m.full) i (some (n.write n.size p)) := by
  have hdone : p = [] → m = m' → m'.Ok ∧ m'.freeinode = m.freeinode ∧
      files m'.full = update (files m.full) i (some (n.write n.size p)) := by
    rintro rfl rfl
    exact ⟨h,rfl,by rw [Node.write_nil,← hn,update_eq_self]⟩
  induction fuel generalizing p m n with
  | zero => exact hdone (eq_nil_of_length_eq_zero (by omega)) (Option.some.inj hc)
  | succ fuel ih =>
    unfold Mkfs.copyFile at hc
    by_cases hp : p = []
    · rw [if_pos hp] at hc
      exact hdone hp (Option.some.inj hc)
    · rw [if_neg hp] at hc
      obtain ⟨m₁,h1,h2⟩ := bind_eq_some_iff.mp hc
      obtain ⟨hok,hfi,-,hfs⟩ := h.iappend hn (take_ne_nil hp) h1
      have hn1 : files m₁.full i = some (n.write n.size (p.take BSIZE)) := by
        rw [hfs,update_self]
      have hlen : (p.drop BSIZE).length ≤ fuel := by
        have hB : BSIZE = 512 := rfl
        rw [length_drop]
        omega
      have hpos : p.drop BSIZE = [] → m₁ = m' → m'.Ok ∧ m'.freeinode = m₁.freeinode ∧
          files m'.full = update (files m₁.full) i
            (some ((n.write n.size (p.take BSIZE)).write (n.write n.size (p.take BSIZE)).size
              (p.drop BSIZE))) := by
        intro hnil hm
        subst hm
        exact ⟨hok,rfl,by rw [hnil,Node.write_nil,← hn1,update_eq_self]⟩
      obtain ⟨hok',hfi',hfs'⟩ := ih hok hn1 hlen h2 hpos
      refine ⟨hok',hfi'.trans hfi,?_⟩
      rw [hfs',hfs,Function.update_idem,Node.write_write,take_append_drop]

/-- The loop succeeds if there is room. -/
theorem Image.Ok.copyFile_total (h : m.Ok) (fuel : ℕ) (hn : files m.full i = some n)
    (hmax : n.size + p.length ≤ MAXFILE * BSIZE)
    (hroom : m.freeblock + blocksFor (n.size + p.length) ≤ FSSIZE + blocksFor n.size) :
    ∃ m', Mkfs.copyFile i fuel p m = some m' ∧
      m'.freeblock + blocksFor n.size ≤ m.freeblock + blocksFor (n.size + p.length) := by
  induction fuel generalizing p m n with
  | zero =>
    refine ⟨m,rfl,?_⟩
    have := blocksFor_mono (Nat.le_add_right n.size p.length)
    omega
  | succ fuel ih =>
    unfold Mkfs.copyFile
    by_cases hp : p = []
    · subst hp
      rw [if_pos rfl]
      exact ⟨m,rfl,le_rfl⟩
    rw [if_neg hp]
    have hsplit : (p.take BSIZE).length + (p.drop BSIZE).length = p.length := by
      rw [← length_append,take_append_drop]
    have hmono := blocksFor_mono (show n.size + (p.take BSIZE).length ≤ n.size + p.length by omega)
    obtain ⟨m₁,h1,hc1⟩ := h.iappend_total hn (take_ne_nil hp) (by omega) (by omega)
    obtain ⟨hok,-,-,hfs⟩ := h.iappend hn (take_ne_nil hp) h1
    have hn1 : files m₁.full i = some (n.write n.size (p.take BSIZE)) := by
      rw [hfs,update_self]
    have hsize : (n.write n.size (p.take BSIZE)).size = n.size + (p.take BSIZE).length :=
      Nat.max_eq_right (Nat.le_add_right ..)
    have hend : n.size + (p.take BSIZE).length + (p.drop BSIZE).length = n.size + p.length := by
      omega
    obtain ⟨m',h',hc'⟩ := ih (p := p.drop BSIZE) hok hn1 (by rw [hsize,hend]; exact hmax)
      (by rw [hsize,hend]; omega)
    rw [hsize,hend] at hc'
    exact ⟨m',bind_eq_some_iff.mpr ⟨m₁,h1,h'⟩,by omega⟩

end Copy

/-- The image after the entries for `names` have been made. -/
structure Rooted (names : List Name) (m : Image) : Prop where
  ok : m.Ok
  freeinode : m.freeinode = names.length + 2
  root : ∃ r, files m.full 1 = some r ∧ r.type = T_DIR ∧ r.nlink = 1 ∧
    r.size = 16 * (names.length + 2) ∧
    ∀ j, j < names.length + 2 → some (r.entry j) = (rootEntries names)[j]?

/-- The image after the files `fs` have been added. -/
structure Built (fs : List (Name × List UInt8)) (m : Image) : Prop
    extends Rooted (fs.map Prod.fst) m where
  file : ∀ j f, fs[j]? = some f → files m.full (j + 2) = some (fileNode f.2)
  other : ∀ i, i ≠ 1 → (i < 2 ∨ fs.length + 2 ≤ i) → files m.full i = none

section Build
variable {m m₁ m₂ m' : Image} {names : List Name} {fs : List (Name × List UInt8)} {r : Node} {i : ℕ}

theorem entry_append {e : Dirent} {c : ℕ} (hs : r.size = 16 * c) :
    (r.write r.size e.bytes).size = 16 * (c + 1) ∧ (r.write r.size e.bytes).entry c = e ∧
      ∀ j, j ≠ c → (r.write r.size e.bytes).entry j = r.entry j := by
  have he : r.write r.size e.bytes = r.setEntry c e := by
    rw [Node.setEntry,hs,Nat.mul_comm]
    rfl
  refine ⟨?_,?_,fun j hj => ?_⟩
  · change max r.size (r.size + e.bytes.length) = _
    rw [length_bytes]
    omega
  · rw [he,Node.entry_setEntry_self]
  · rw [he,Node.entry_setEntry_ne hj]

/-- The number of blocks of a root directory with the entries of `c` files. -/
def rootBlocks (c : ℕ) : ℕ := blocksFor (16 * (c + 2))

/-- The entry of a file: `m₁` is the image when its inode has been taken. -/
theorem Rooted.link {name : Name} (h : Rooted names m) (hok : m₁.Ok)
    (hfi : m₁.freeinode = m.freeinode + 1) (hroot : files m₁.full 1 = files m.full 1)
    (ha : iappend 1 (named (shortName name) (names.length + 2)).bytes m₁ = some m₂) :
    Rooted (names ++ [name]) m₂ ∧ ∀ j, j ≠ 1 → files m₂.full j = files m₁.full j := by
  obtain ⟨r,hr,hrt,hrl,hrs,hre⟩ := h.root
  obtain ⟨hok2,hfi2,-,hf2⟩ := hok.iappend (hroot.trans hr) (bytes_ne_nil _) ha
  obtain ⟨hsz,hlast,hsame⟩ := entry_append (r := r)
    (e := named (shortName name) (names.length + 2)) hrs
  have hr2 := congrFun hf2 1
  rw [update_self] at hr2
  refine ⟨⟨hok2,?_,_,hr2,hrt,hrl,?_,fun j hj => ?_⟩,fun j hj => ?_⟩
  · rw [hfi2,hfi,h.freeinode,length_append,length_singleton]
  · rw [hsz,length_append,length_singleton]
  · rw [length_append,length_singleton] at hj
    rw [rootEntries_append]
    by_cases hjl : j = names.length + 2
    · subst hjl
      rw [hlast,List.getElem?_append_right (by rw [length_rootEntries]),length_rootEntries]
      simp
    · rw [hsame j hjl,List.getElem?_append_left (by rw [length_rootEntries]; omega)]
      exact hre j (by omega)
  · rw [hf2,update_of_ne hj]

/-- There is room for the entry of a file. -/
theorem Rooted.link_total (h : Rooted names m) (hok : m₁.Ok)
    (hroot : files m₁.full 1 = files m.full 1) (e : Dirent)
    (hmax : 16 * (names.length + 3) ≤ MAXFILE * BSIZE)
    (hroom : m₁.freeblock + rootBlocks (names.length + 1) ≤ FSSIZE + rootBlocks names.length) :
    ∃ m₂, iappend 1 e.bytes m₁ = some m₂ ∧
      m₂.freeblock + rootBlocks names.length ≤ m₁.freeblock + rootBlocks (names.length + 1) := by
  obtain ⟨r,hr,-,-,hrs,-⟩ := h.root
  have hsize : r.size + e.bytes.length = 16 * (names.length + 1 + 2) := by
    rw [length_bytes]
    omega
  have := hok.iappend_total (hroot.trans hr) (bytes_ne_nil e) (by omega)
    (by rw [hsize,hrs]; exact hroom)
  rwa [hsize,hrs] at this

/-- `addFile` step by step. -/
theorem addFile_eq_some {f : Name × List UInt8} (hfi : m.freeinode = names.length + 2) :
    addFile f m = some m' ↔ 47 ∉ f.1 ∧ IBLOCK m.freeinode sb < FSSIZE ∧ ∃ m₂,
      iappend 1 (named (shortName f.1) (names.length + 2)).bytes (ialloc T_FILE m).2
        = some m₂ ∧ copyFile m.freeinode f.2.length f.2 m₂ = some m' := by
  have hdir : dirent m.freeinode (shortName f.1)
      = (named (shortName f.1) (names.length + 2)).bytes := by
    rw [← hfi]
    rfl
  rw [← hdir]
  unfold addFile
  by_cases h47 : 47 ∈ f.1
  · rw [if_pos h47]
    exact iff_of_false (by simp) fun hc => hc.1 h47
  · rw [if_neg h47]
    change (if IBLOCK m.freeinode sb < FSSIZE then
      (iappend 1 (dirent m.freeinode (shortName f.1)) (ialloc T_FILE m).2).bind
        fun m₂ => copyFile m.freeinode f.2.length f.2 m₂ else none) = some m' ↔ _
    by_cases hb : IBLOCK m.freeinode sb < FSSIZE
    · rw [if_pos hb,bind_eq_some_iff]
      exact ⟨fun h => ⟨h47,hb,h⟩,fun h => h.2.2⟩
    · rw [if_neg hb]
      exact iff_of_false (by simp) fun hc => hb hc.2.1

theorem Built.addFile {f : Name × List UInt8} (h : Built fs m)
    (ha : Mkfs.addFile f m = some m') (hi : fs.length + 3 ≤ NINODES) : Built (fs ++ [f]) m' := by
  have hfi : m.freeinode = fs.length + 2 := by simpa using h.freeinode
  obtain ⟨-,-,m₂,h2,h3⟩ := (addFile_eq_some h.freeinode).mp ha
  obtain ⟨hok1,hf1⟩ := h.ok.ialloc T_FILE (by decide) (by omega)
  have hroot : files (ialloc T_FILE m).2.full 1 = files m.full 1 := by
    rw [hf1,update_of_ne (by omega)]
  obtain ⟨hr2,hf2⟩ := h.toRooted.link hok1 rfl hroot h2
  have hnew : files m₂.full m.freeinode = some (newNode T_FILE) := by
    rw [hf2 _ (by omega),hf1,update_self]
  obtain ⟨hok3,hfi3,hf3⟩ := hr2.ok.copyFile hnew le_rfl h3
  rw [write_newNode] at hf3
  have hfiles : ∀ j, j ≠ 1 → j ≠ m.freeinode → files m'.full j = files m.full j := by
    intro j hj1 hjf
    rw [hf3,update_of_ne hjf,hf2 j hj1,hf1,update_of_ne hjf]
  obtain ⟨r,hr,hrest⟩ := hr2.root
  refine ⟨⟨hok3,?_,r,?_,?_⟩,fun j g hg => ?_,fun j hj1 hj2 => ?_⟩
  · rw [hfi3,hr2.freeinode,map_append]
    rfl
  · rw [hf3,update_of_ne (by omega),hr]
  · rw [map_append]
    exact hrest
  · by_cases hj : j = fs.length
    · subst hj
      rw [List.getElem?_append_right le_rfl,Nat.sub_self] at hg
      obtain rfl : f = g := Option.some.inj hg
      rw [hf3,← hfi,update_self]
    · have hlt : j < fs.length := by
        have := (List.getElem?_eq_some_iff.mp hg).1
        rw [length_append,length_singleton] at this
        omega
      rw [List.getElem?_append_left hlt] at hg
      rw [hfiles _ (by omega) (by omega)]
      exact h.file j g hg
  · rw [length_append,length_singleton] at hj2
    rw [hfiles j hj1 (by omega)]
    exact h.other j hj1 (by omega)

theorem Built.addFiles {gs : List (Name × List UInt8)} (h : Built fs m)
    (ha : Mkfs.addFiles gs m = some m') (hi : (fs ++ gs).length + 2 ≤ NINODES) :
    Built (fs ++ gs) m' := by
  induction gs generalizing fs m with
  | nil =>
    cases ha
    rwa [append_nil]
  | cons g gs ih =>
    obtain ⟨m₁,h1,h2⟩ := bind_eq_some_iff.mp ha
    rw [append_cons] at hi ⊢
    refine ih (h.addFile h1 ?_) h2 hi
    simp only [length_append,length_singleton] at hi
    omega

/-- The number of blocks that a file system with the files `fs` takes. -/
def blocksUsed (fs : List (Name × List UInt8)) : ℕ :=
  nmeta + rootBlocks fs.length + (fs.map fun f => blocksFor f.2.length).sum

theorem blocksUsed_append (fs gs : List (Name × List UInt8)) :
    blocksUsed fs ≤ blocksUsed (fs ++ gs) := by
  have := blocksFor_mono (show 16 * (fs.length + 2) ≤ 16 * ((fs ++ gs).length + 2) by
    rw [length_append]; omega)
  unfold blocksUsed rootBlocks
  rw [map_append,sum_append]
  omega

theorem Built.addFile_total {f : Name × List UInt8} (h : Built fs m)
    (hi : fs.length + 3 ≤ NINODES) (h47 : 47 ∉ f.1) (hmax : f.2.length ≤ MAXFILE * BSIZE)
    (hcount : m.freeblock ≤ blocksUsed fs) (hroom : blocksUsed (fs ++ [f]) ≤ FSSIZE) :
    ∃ m', Mkfs.addFile f m = some m' ∧ m'.freeblock ≤ blocksUsed (fs ++ [f]) := by
  have hN : NINODES = 200 := rfl
  have hM : MAXFILE * BSIZE = 71680 := rfl
  have hlen : (fs.map Prod.fst).length = fs.length := length_map ..
  have hfi : m.freeinode = fs.length + 2 := by rw [h.freeinode,hlen]
  have hused : blocksUsed (fs ++ [f]) = nmeta + rootBlocks (fs.length + 1)
      + ((fs.map fun f => blocksFor f.2.length).sum + blocksFor f.2.length) := by
    simp [blocksUsed]
  have hfs : blocksUsed fs = nmeta + rootBlocks fs.length
      + (fs.map fun f => blocksFor f.2.length).sum := rfl
  obtain ⟨hok1,hf1⟩ := h.ok.ialloc T_FILE (by decide) (show m.freeinode < NINODES by omega)
  have hroot : files (ialloc T_FILE m).2.full 1 = files m.full 1 := by
    rw [hf1,update_of_ne (by omega)]
  have hfb1 : (ialloc T_FILE m).2.freeblock = m.freeblock := rfl
  obtain ⟨m₂,h2,hc2⟩ := h.toRooted.link_total hok1 hroot
    (named (shortName f.1) ((fs.map Prod.fst).length + 2)) (by rw [hlen]; omega)
    (by rw [hlen]; omega)
  obtain ⟨hr2,hf2⟩ := h.toRooted.link hok1 rfl hroot h2
  have hnew : files m₂.full m.freeinode = some (newNode T_FILE) := by
    rw [hf2 _ (by omega),hf1,update_self]
  have h0 : blocksFor (newNode T_FILE).size = 0 := by decide
  have hsize : (newNode T_FILE).size + f.2.length = f.2.length := Nat.zero_add _
  rw [hlen] at hc2
  obtain ⟨m',h3,hc3⟩ := hr2.ok.copyFile_total f.2.length hnew
    (by rw [hsize]; exact hmax) (by rw [hsize,h0]; omega)
  rw [hsize,h0] at hc3
  refine ⟨m',(addFile_eq_some h.freeinode).mpr ⟨h47,?_,m₂,h2,h3⟩,by omega⟩
  rw [IBLOCK_eq]
  simp only [FSSIZE]
  omega

theorem Built.addFiles_total (h : Built fs m) (gs : List (Name × List UInt8))
    (hi : (fs ++ gs).length + 2 ≤ NINODES) (h47 : ∀ g ∈ gs, 47 ∉ g.1)
    (hmax : ∀ g ∈ gs, g.2.length ≤ MAXFILE * BSIZE)
    (hcount : m.freeblock ≤ blocksUsed fs) (hroom : blocksUsed (fs ++ gs) ≤ FSSIZE) :
    ∃ m', Mkfs.addFiles gs m = some m' ∧ m'.freeblock ≤ blocksUsed (fs ++ gs) := by
  induction gs generalizing fs m with
  | nil =>
    rw [append_nil]
    exact ⟨m,rfl,hcount⟩
  | cons g gs ih =>
    rw [append_cons] at hi hroom ⊢
    have hone : fs.length + 3 ≤ NINODES := by
      simp only [length_append,length_singleton] at hi
      omega
    obtain ⟨m₁,h1,hc1⟩ := h.addFile_total hone (h47 g mem_cons_self)
      (hmax g mem_cons_self) hcount ((blocksUsed_append ..).trans hroom)
    obtain ⟨m',h',hc'⟩ := ih (h.addFile h1 hone) hi
      (fun f hf => h47 f (mem_cons_of_mem _ hf))
      (fun f hf => hmax f (mem_cons_of_mem _ hf)) hc1 hroom
    exact ⟨m',bind_eq_some_iff.mpr ⟨m₁,h1,h'⟩,hc'⟩

theorem files_blank (i : ℕ) : files blank.full i = none := files_eq_none.mpr (blank_inode i)

theorem root_inode : (ialloc T_DIR blank).2.Ok ∧
    files (ialloc T_DIR blank).2.full = update (files blank.full) 1 (some (newNode T_DIR)) :=
  ok_blank.ialloc T_DIR (by decide) (by decide)

theorem built_root (h1 : iappend 1 (dirent 1 dot) (ialloc T_DIR blank).2 = some m₁)
    (h2 : iappend 1 (dirent 1 dotdot) m₁ = some m₂) : Built [] m₂ := by
  obtain ⟨hok0,hf0⟩ := root_inode
  have hr0 : files (ialloc T_DIR blank).2.full 1 = some (newNode T_DIR) := by
    rw [hf0,update_self]
  obtain ⟨hok1,hfi1,-,hf1⟩ := hok0.iappend (p := (named dot 1).bytes) hr0
    (bytes_ne_nil _) h1
  have hr1 : files m₁.full 1 = some ((newNode T_DIR).write (newNode T_DIR).size
      (named dot 1).bytes) := by rw [hf1,update_self]
  obtain ⟨hok2,hfi2,-,hf2⟩ := hok1.iappend (p := (named dotdot 1).bytes) hr1
    (bytes_ne_nil _) h2
  obtain ⟨hsz1,hlast1,hsame1⟩ := entry_append (r := newNode T_DIR) (e := named dot 1)
    (c := 0) rfl
  obtain ⟨hsz2,hlast2,hsame2⟩ := entry_append (e := named dotdot 1) hsz1
  have hr2 := congrFun hf2 1
  rw [update_self] at hr2
  refine ⟨⟨hok2,?_,_,hr2,rfl,rfl,hsz2,fun j hj => ?_⟩,nofun,fun j hj1 hj2 => ?_⟩
  · rw [hfi2,hfi1]
    rfl
  · obtain rfl | rfl : j = 0 ∨ j = 1 := by
      change j < 2 at hj
      omega
    · rw [hsame2 0 (by omega),hlast1]
      rfl
    · rw [hlast2]
      rfl
  · rw [hf2,update_of_ne hj1,hf1,update_of_ne hj1,hf0,
      update_of_ne hj1,files_blank]

theorem built_root_total : ∃ m₁ m₂, iappend 1 (dirent 1 dot) (ialloc T_DIR blank).2 = some m₁ ∧
    iappend 1 (dirent 1 dotdot) m₁ = some m₂ ∧ m₂.freeblock ≤ blocksUsed [] := by
  obtain ⟨hok0,hf0⟩ := root_inode
  have hr0 : files (ialloc T_DIR blank).2.full 1 = some (newNode T_DIR) := by
    rw [hf0,update_self]
  have hlen : ∀ name : Name, (dirent 1 name).length = 16 := fun name =>
    length_bytes (named name 1)
  have hfb0 : (ialloc T_DIR blank).2.freeblock = nmeta := rfl
  have hsize0 : (newNode T_DIR).size = 0 := rfl
  obtain ⟨m₁,h1,hc1⟩ := hok0.iappend_total (p := dirent 1 dot) hr0 (bytes_ne_nil _)
    (by rw [hlen,hsize0]; decide) (by rw [hlen,hsize0,hfb0]; decide)
  obtain ⟨hok1,-,-,hf1⟩ := hok0.iappend hr0 (bytes_ne_nil (named dot 1)) h1
  have hr1 := congrFun hf1 1
  rw [update_self] at hr1
  have hsize1 : ((newNode T_DIR).write (newNode T_DIR).size (named dot 1).bytes).size = 16 := by
    change max 0 (0 + (named dot 1).bytes.length) = 16
    rw [length_bytes]
    rfl
  rw [hlen,hsize0,hfb0] at hc1
  have hb : blocksFor (0 + 16) = 1 ∧ blocksFor (16 + 16) = 1 ∧ blocksFor 16 = 1 ∧
      blocksFor 0 = 0 ∧ blocksUsed [] = 60 ∧ nmeta = 59 := by decide
  obtain ⟨m₂,h2,hc2⟩ := hok1.iappend_total (p := dirent 1 dotdot) hr1 (bytes_ne_nil _)
    (by rw [hlen,hsize1]; decide)
    (by rw [hlen,hsize1]; simp only [FSSIZE]; omega)
  rw [hlen,hsize1] at hc2
  exact ⟨m₁,m₂,h1,h2,by omega⟩

theorem build_built (h : build fs = some m) (hn : fs.length ≤ NINODES - 2) : Built fs m := by
  obtain ⟨m₁,h1,m₂,h2,h3⟩ := build_eq_some.mp h
  have hN : NINODES = 200 := rfl
  exact (built_root h1 h2).addFiles h3 (by rw [nil_append]; omega)

end Build

/-- The files fit on the disk, and none of their names has a slash. -/
structure Fits (fs : List (Name × List UInt8)) : Prop where
  count : fs.length ≤ NINODES - 2
  slash : ∀ f ∈ fs, 47 ∉ f.1
  size : ∀ f ∈ fs, f.2.length ≤ MAXFILE * BSIZE
  room : blocksUsed fs ≤ FSSIZE

theorem Fits.build {fs : List (Name × List UInt8)} (h : Fits fs) :
    ∃ m, Mkfs.build fs = some m ∧ m.freeblock ≤ blocksUsed fs := by
  obtain ⟨m₁,m₂,h1,h2,hc⟩ := built_root_total
  have hN : NINODES = 200 := rfl
  have hcount := h.count
  obtain ⟨m,hm,hcm⟩ := (built_root h1 h2).addFiles_total fs
    (by rw [nil_append]; omega) h.slash h.size hc (by rw [nil_append]; exact h.room)
  exact ⟨m,build_eq_some.mpr ⟨m₁,h1,m₂,h2,hm⟩,hcm⟩

end Mkfs
end Xv6
