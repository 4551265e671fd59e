import Xv6.Fs.DirSpec
import Xv6.Mkfs.Final

/-! # What `mkfs.c` writes, the kernel reads

`dirlookup` on the root directory of a new file system.  Where the size of the directory
has been rounded up to a block that is missing, the search ends before that block. -/
namespace Xv6
open Conc
open Function (update)
open Dirent (sizeof)
open List Option

section Names
variable {s t : Name}

theorem strncpy_cstr (h : 0 ∉ s) (i : ℕ) : strncpy (cstr s) i = cstr s i := by
  induction s generalizing i with
  | nil =>
    have hz : cstr [] = fun _ => (0 : UInt8) := funext fun j => getD_nil
    cases i with
    | zero => rfl
    | succ i => rw [hz,strncpy,if_pos rfl]
  | cons b s ih =>
    cases i with
    | zero => rfl
    | succ i =>
      rw [strncpy,if_neg fun hb => h (by rw [← show b = 0 from hb]; exact mem_cons_self)]
      exact ih (fun hm => h (mem_cons_of_mem _ hm)) i

/-- Names without zero bytes that `namecmp` takes for equal have the same first `DIRSIZ`
bytes. -/
theorem take_eq_of_nameKey (hs : 0 ∉ s) (ht : 0 ∉ t) (h : nameKey (cstr s) = nameKey (cstr t)) :
    s.take DIRSIZ = t.take DIRSIZ := by
  have hbyte : ∀ i, i < DIRSIZ → s.getD i 0 = t.getD i 0 := by
    intro i hi
    have := congrArg (fun b => b.byte i) h
    simp only [nameKey,Bytes.byte_tabulate _ hi,strncpy_cstr hs,strncpy_cstr ht] at this
    exact this
  refine ext_getElem? fun i => ?_
  by_cases hi : i < DIRSIZ
  · rw [List.getElem?_take_of_lt hi,List.getElem?_take_of_lt hi]
    have hb := hbyte i hi
    rw [getD_eq_getElem?_getD,getD_eq_getElem?_getD] at hb
    cases hsi : s[i]? with
    | none =>
      cases hti : t[i]? with
      | none => rfl
      | some b =>
        rw [hsi,hti] at hb
        exact absurd (mem_of_getElem? hti) (by rw [← show 0 = b from hb]; exact ht)
    | some a =>
      cases hti : t[i]? with
      | none =>
        rw [hsi,hti] at hb
        exact absurd (mem_of_getElem? hsi) (by rw [show a = 0 from hb]; exact hs)
      | some b =>
        rw [hsi,hti] at hb
        rw [show a = b from hb]
  · rw [List.getElem?_eq_none (by rw [length_take]; omega),
      List.getElem?_eq_none (by rw [length_take]; omega)]

/-- A name that is no longer than `DIRSIZ` is given by its first `DIRSIZ` bytes. -/
theorem eq_of_take (ht : t.length < DIRSIZ) (h : s.take DIRSIZ = t.take DIRSIZ) : s = t := by
  have hlen := congrArg List.length h
  rw [length_take,length_take] at hlen
  rwa [take_of_length_le (by omega),take_of_length_le (by omega)] at h

end Names

namespace Fs
section Found
variable {p : ℕ} {E : Stops} {v : View} {o : Owners} {k i t : ℕ}
  {n : Node} {name : Name}

/-- A directory that is locked, with its blocks up to entry `t`. -/
structure Scanned (p k i t : ℕ) (n : Node) (v : View) (o : Lock → Option ℕ) : Prop
    extends Locked p i k v o where
  ready : Ready v
  owned : Owned (inodeAt v.disk) v.disk
  node : files v.disk i = some n
  dir : n.type = T_DIR
  count : t < n.count
  mapped : ∀ m, m * BSIZE < (t + 1) * sizeof → (inodeAt v.disk i).blk v.disk m ≠ 0

theorem Safe.readDirent_upto {Q : Post Dirent} {e : Panic} {j : ℕ}
    (hl : Scanned p k i t n v o) (hj : j ≤ t) (h : Q (n.entry j) v o) :
    Safe p E (Fs.readDirent p k (j * sizeof) e) Q v o := by
  obtain ⟨hi,ht,hnode⟩ := files_eq_some hl.node
  have htd : (inodeAt v.disk i).type ≠ T_DEV := by
    have : (inodeAt v.disk i).type = T_DIR := by
      rw [← hl.dir,hnode]
      rfl
    rw [this]
    decide
  have hcount : j < (nodeOf (inodeAt v.disk i) v.disk).count := by
    rw [← hnode]
    exact Nat.lt_of_le_of_lt hj hl.count
  have h16 : sizeof = 16 := rfl
  have hend : j * sizeof + sizeof ≤ (inodeAt v.disk i).size.toNat := by
    have hc : j < (inodeAt v.disk i).size.toNat / sizeof := hcount
    rw [h16] at hc ⊢
    omega
  refine bind (readi_upto hl.ready hl.owned hi hl.copy.symm ht hl.bufs (fun hc => absurd hc htd)
    hl.inum hl.valid hl.ref hl.lock (fun m hm _ => hl.mapped m ?_) fun r inp hr => ?_)
  · rw [h16] at hm ⊢
    omega
  · obtain ⟨rfl,rfl⟩ := hr htd
    rw [readResult_full hend]
    refine bind (panicIf (fun hbad => ?_) fun _ => pure ?_)
    · simp at hbad
    · rw [ofBytes_contentAt hcount,← hnode]
      exact h

/-- The loop of `dirlookup` gets to the entry that it looks for. -/
theorem Safe.dirlookupFrom_found {Q : Post (Option (ℕ × ℕ))}
    {fuel j : ℕ} (hl : Scanned p k i t n v o) (hlook : n.lookup name = some t)
    (hfull : ¬ CacheFull v (n.entry t).inum.toNat) (hj : j ≤ t) (hfuel : t < j + fuel)
    (h : ∀ k' ip, Got v (n.entry t).inum.toNat k' ip →
      Q (some (k',t * sizeof)) (v.setSlot k' ip) o) :
    Safe p E (Fs.dirlookupFrom p k name fuel (j * sizeof)) Q v o := by
  obtain ⟨-,hlive,hprev⟩ := Node.lookup_eq_some.mp hlook
  induction fuel generalizing j with
  | zero => omega
  | succ fuel ih =>
    have hlt : j * sizeof < (v.inode k).d.size.toNat := by
      obtain ⟨-,-,rfl⟩ := files_eq_some hl.node
      rw [hl.copy]
      exact entry_lt_of_lt (Nat.lt_of_le_of_lt hj hl.count)
    refine inode_seq ?_
    rw [if_pos hlt]
    refine bind (readDirent_upto hl hj ?_)
    by_cases hjt : j = t
    · subst hjt
      rw [if_pos hlive]
      exact bind (iget_got (fun hc => absurd hc hfull) fun k' ip hg =>
        pure (h k' ip hg))
    · rw [if_neg (hprev j (by omega)),← Nat.succ_mul]
      exact ih (by omega) (by omega)

theorem Safe.dirlookup_found {Q : Post (Option (ℕ × ℕ))}
    (hl : Scanned p k i t n v o) (hlook : n.lookup name = some t)
    (hfull : ¬ CacheFull v (n.entry t).inum.toNat)
    (h : ∀ k' ip, Got v (n.entry t).inum.toNat k' ip →
      Q (some (k',t * sizeof)) (v.setSlot k' ip) o) : Safe p E (Fs.dirlookup p k name) Q v o := by
  obtain ⟨-,-,hnode⟩ := files_eq_some hl.node
  have hd : (v.inode k).d.type = T_DIR := by
    rw [hl.copy,← hl.dir,hnode]
    rfl
  have hfuel : t < 0 + ((v.inode k).d.size.toNat / sizeof + 1) := by
    have hc : t < (nodeOf (inodeAt v.disk i) v.disk).count := hnode ▸ hl.count
    rw [hl.copy,Nat.zero_add]
    exact Nat.lt_succ_of_lt hc
  refine inode_seq ?_
  refine bind (panicIf (fun hc => ?_) fun _ => ?_)
  · rw [hd] at hc
    exact absurd hc (by decide)
  · have := dirlookupFrom_found (E := E) (Q := Q) hl hlook hfull (Nat.zero_le t) hfuel h
    rwa [Nat.zero_mul] at this

end Found
end Fs

namespace Mkfs
open Fs
variable {fs : List (Name × List UInt8)} {d : Disk} {used j : ℕ} {f : Name × List UInt8}

theorem bytes_fileNode (p : List UInt8) : (fileNode p).bytes = p := by
  refine ext_getElem (by rw [Node.length_bytes]; rfl) fun x h1 h2 => ?_
  rw [Node.getElem_bytes]
  exact getD_eq_getElem _ _ h2

/-- The names are those of strings, none of them stands for a directory, and they are
different in the bytes that an entry holds. -/
structure NamesOk (fs : List (Name × List UInt8)) : Prop where
  string : ∀ f ∈ fs, 0 ∉ f.1
  ne_dot : ∀ f ∈ fs, shortName f.1 ≠ dot ∧ shortName f.1 ≠ dotdot
  nodup : (fs.map fun f => (shortName f.1).take DIRSIZ).Nodup

theorem NamesOk.short (h : NamesOk fs) (hf : f ∈ fs) : 0 ∉ shortName f.1 := by
  unfold shortName
  split
  · exact fun hm => h.string f hf (mem_of_mem_tail hm)
  · exact h.string f hf

/-- The entries of the root directory that stand for files. -/
theorem Made.entry (h : Made fs used d) {r : Node} (hr : files d 1 = some r)
    (hj : fs[j]? = some f) : r.entry (j + 2) = Dirent.named (shortName f.1) (j + 2) := by
  obtain ⟨r',hr',-,-,-,hentry,-⟩ := h.root
  rw [hr] at hr'
  obtain rfl := Option.some.inj hr'
  have hlt := (List.getElem?_eq_some_iff.mp hj).1
  have he := hentry (j + 2) (by rw [length_map]; omega)
  simp only [rootEntries,List.getElem?_cons_succ,List.getElem?_mapIdx,List.getElem?_map,hj,
    map_some,Option.some.injEq] at he
  exact he

theorem Made.lookup (h : Made fs used d) (hn : NamesOk fs) {r : Node} (hr : files d 1 = some r)
    (hj : fs[j]? = some f) : r.lookup (shortName f.1) = some (j + 2) := by
  obtain ⟨r',hr',-,-,hsize,hentry,-⟩ := h.root
  have hr1 := hr
  rw [hr] at hr'
  obtain rfl := Option.some.inj hr'
  have hlt := (List.getElem?_eq_some_iff.mp hj).1
  have hmem : f ∈ fs := mem_of_getElem? hj
  have hlast := (files_eq_some (h.file j f hj)).1
  have hN : NINODES = 200 := rfl
  have hB : BSIZE = 512 := rfl
  have hdots : 0 ∉ dot ∧ 0 ∉ dotdot ∧ dot.length < DIRSIZ ∧ dotdot.length < DIRSIZ := by decide
  rw [length_map] at hsize hentry
  refine Node.lookup_eq_some.mpr ⟨?_,?_,fun m hm => ?_⟩
  · rw [Node.count,hsize,hB,sizeof]
    omega
  · rw [h.entry hr1 hj]
    exact ⟨(Dirent.named_live _ (by omega) (by omega)).2, namecmp_eq_zero.mpr Dirent.named_key.symm⟩
  · rintro ⟨-,hcmp⟩
    rw [namecmp_eq_zero] at hcmp
    have he := hentry m (by omega)
    rcases m with _ | _ | x
    · rw [show r.entry 0 = Dirent.named dot 1 from Option.some.inj he,Dirent.named_key] at hcmp
      exact (hn.ne_dot f hmem).1 (eq_of_take hdots.2.2.1
        (take_eq_of_nameKey (hn.short hmem) hdots.1 hcmp))
    · rw [show r.entry 1 = Dirent.named dotdot 1 from Option.some.inj he,Dirent.named_key] at hcmp
      exact (hn.ne_dot f hmem).2 (eq_of_take hdots.2.2.2
        (take_eq_of_nameKey (hn.short hmem) hdots.2.1 hcmp))
    · have hx : x < fs.length := by omega
      rw [h.entry hr1 (List.getElem?_eq_getElem hx),Dirent.named_key] at hcmp
      have htake := take_eq_of_nameKey (hn.short hmem)
        (hn.short (getElem_mem hx)) hcmp
      have hxj : x = j := by
        refine (List.getElem?_inj (by simpa using hx) hn.nodup).mp ?_
        rw [List.getElem?_map,List.getElem?_map,hj,List.getElem?_eq_getElem hx,map_some,
          map_some,htake]
      omega

/-- A kernel that runs on the disk `d`: process `p` has the root directory locked in slot
`k` and no other lock, what is in the inode cache is as on disk, and the cache is not full. -/
structure Reading (p k : ℕ) (d : Disk) (c : KCfg) : Prop where
  ready : Ready c.st.view
  content : c.st.content = d
  root : Locked p ROOTINO k c.st.view c.owner
  unlocked : ∀ k', k' ≠ k → c.owner (.inode k') = none
  copy : ∀ k' i, Holds c.st.view k' i → (c.st.view.inode k').valid = true →
    (c.st.view.inode k').d = inodeAt d i
  room : ∃ k', k' < NINODE ∧ (c.st.view.inode k').ref = 0

/-- On the image of files that fit, with names that differ, `dirlookup` on the root
directory finds every file, and `readi` on the inode that it returns gives back the bytes
of the file. -/
theorem mkfs_files_read_back (hfit : Fits fs) (hnames : NamesOk fs) : ∃ d, main fs = some d ∧
    ∀ j f, fs[j]? = some f → ∀ p k c, Reading p k d c → ∃ k' off c₁ c₂,
      run p (Fs.dirlookup p k (shortName f.1)) c = .ok (some (k',off),c₁) ∧
      run p (Fs.ilock k') c₁ = .ok ((),c₂) ∧
      (c₂.st.view.inode k').inum = j + 2 ∧ (c₂.st.view.inode k').d.type = T_FILE ∧
      (c₂.st.view.inode k').d.size.toNat = f.2.length ∧
      ∀ off len : UInt32, off.toNat ≤ f.2.length → off.toNat + len.toNat < 2 ^ 32 →
        ∃ c₃, run p (Fs.readi p k' off.toNat len.toNat) c₂
          = .ok ((((f.2.drop off.toNat).take len.toNat).length,
              (f.2.drop off.toNat).take len.toNat),c₃) ∧
            c₃.st.view = c₂.st.view ∧ c₃.owner = c₂.owner := by
  obtain ⟨d,used,hd,hmade,-⟩ := hfit.main
  refine ⟨d,hd,fun j f hj p k c hc => ?_⟩
  obtain ⟨r,hr,hrt,-,hsize,-⟩ := hmade.root
  have hlook := hmade.lookup hnames hr hj
  have hfile := hmade.file j f hj
  obtain ⟨hi,ht,hnode⟩ := files_eq_some hfile
  have hN : NINODES = 200 := rfl
  have hinum : (r.entry (j + 2)).inum.toNat = j + 2 := by
    rw [hmade.entry hr hj]
    exact (Dirent.named_live _ (by omega) (by omega)).1
  have hdisk : c.st.view.disk = d := hc.content
  have hscan : Scanned p k ROOTINO (j + 2) r c.st.view c.owner := by
    refine ⟨hc.root,hc.ready,by rw [hdisk]; exact hmade.owned,by rw [hdisk]; exact hr,hrt,
      (Node.lookup_eq_some.mp hlook).1,fun m hm => ?_⟩
    rw [hdisk]
    refine hmade.rootMapped m ?_
    have hlt := (List.getElem?_eq_some_iff.mp hj).1
    rw [length_map]
    simp only [sizeof] at hm
    omega
  obtain ⟨k₀,hk₀,hfree⟩ := hc.room
  obtain ⟨a,c₁,hrun₁,k',ip,rfl,hg,hv₁,ho₁⟩ := Safe.returns (c := c) (p := p)
    (x := Fs.dirlookup p k (shortName f.1)) (Safe.dirlookup_found
      (Q := fun a v' o' => ∃ k' ip, a = some (k',(j + 2) * sizeof) ∧
        Got c.st.view (j + 2) k' ip ∧ v' = c.st.view.setSlot k' ip ∧ o' = c.owner) hscan hlook
      (fun hf => hf.1 k₀ hk₀ hfree) fun k' ip hg => ⟨k',ip,rfl,by rwa [hinum] at hg,rfl,rfl⟩)
  have hk' : Holds c₁.st.view k' (j + 2) := by
    rw [hv₁]
    exact hg.holds
  have hne : k' ≠ k := by
    rintro rfl
    rcases hg.was with ⟨h,-⟩ | ⟨-,h0,-⟩
    · have := h.inum.symm.trans hc.root.inum
      change j + 2 = 1 at this
      omega
    · have := hc.root.ref
      omega
  have hdisk₁ : c₁.st.view.disk = d := by
    rw [hv₁]
    exact hdisk
  have hready₁ : Ready c₁.st.view := by
    rw [hv₁]
    exact ⟨hc.ready.sb,hc.ready.block,hc.ready.log⟩
  obtain ⟨⟨⟩,c₂,hrun₂,hready₂,hdisk₂,hlocked⟩ := Safe.returns (c := c₁) (p := p)
    (x := Fs.ilock k')
    (Q := fun _ v' o' => Ready v' ∧ v'.disk = c₁.st.view.disk ∧ Locked p (j + 2) k' v' o')
    (Safe.ilock_locked hready₁ hi hk'.inum hk'.ref (by rw [hdisk₁]; exact ht) (fun hv => by
        rw [hdisk₁]
        rcases hg.fresh with h | h
        · rw [hv₁] at hv ⊢
          obtain ⟨-,hval,hcopy⟩ := hg.keep h
          rw [hcopy]
          exact hc.copy k' _ h (hval.symm.trans hv)
        · rw [← hv₁,hv] at h
          cases h)
      (by rw [ho₁]; exact hc.unlocked k' hne) (by rw [ho₁]; exact hc.root.bufs)
      fun _ hl => ⟨⟨hready₁.sb,hready₁.block,hready₁.log⟩,rfl,hl⟩)
  rw [hdisk₁] at hdisk₂
  have hcopy : (c₂.st.view.inode k').d = inodeAt d (j + 2) := by
    rw [hlocked.copy,hdisk₂]
  have htype : (inodeAt d (j + 2)).type = T_FILE := (congrArg Node.type hnode).symm
  refine ⟨k',_,c₁,c₂,hrun₁,hrun₂,hlocked.inum,?_,?_,fun off len hoff hlen => ?_⟩
  · rw [hcopy]
    exact htype
  · rw [hcopy]
    exact (congrArg Node.size hnode).symm
  · change c₂.st.content = d at hdisk₂
    have hown : Owned (inodeAt c₂.st.content) c₂.st.content := by
      rw [hdisk₂]
      exact hmade.owned
    obtain ⟨c₃,hrun₃,hv₃,ho₃⟩ := readi_locked hlocked hready₂ hown hi (by rw [hdisk₂]; exact ht)
      (by rw [hdisk₂]; exact hmade.mapped (j + 2) hi (by omega) ht)
      (by rw [hdisk₂,htype]; decide) off.toNat len.toNat
    have := readResult_eq (v := c₂.st.view) off.toNat_lt len.toNat_lt
      (hfile.symm ▸ congrArg (files · (j + 2)) hdisk₂) (n := fileNode f.2) (fun href => by
        unfold ReadRefused at href
        change off.toNat > f.2.length ∨ _ at href
        omega)
    rw [bytes_fileNode] at this
    exact ⟨c₃,hrun₃.trans (congrArg (fun r => Except.ok (r,c₃)) this),hv₃,ho₃⟩

/-- Process 0 has the root directory locked, and nothing else is in use. -/
def rootLocked (d : Disk) : KCfg where
  st :=
    { disk := .ofFun d
      cache := .ofFun fun _ => none
      writes := []
      sb := Mkfs.sb
      log := ⟨Mkfs.logstart,Mkfs.nlog,0,false,[]⟩
      inode := .ofFun fun k => if k = 0 then ⟨ROOTINO,1,true,inodeAt d ROOTINO⟩ else default
      file := .ofFun fun _ => default
      proc := .ofFun fun _ => default
      input := [] }
  held := [(.inode 0,0)]

theorem reading_rootLocked (h : Superblock.ofBlock (d 1) = sb) : Reading 0 0 d (rootLocked d) where
  ready := ⟨rfl,h,rfl,rfl,by decide,show 0 + 0 < Mkfs.nlog by decide,nofun,nofun⟩
  content := rfl
  root := ⟨rfl,Int.one_pos,rfl,rfl,rfl,fun _ => rfl⟩
  unlocked := by
    intro k' hk'
    unfold Cfg.owner rootLocked
    rw [List.find?_cons_of_neg (by simpa using hk'.symm)]
    rfl
  copy := by
    intro k' i hk hv
    by_cases hk0 : k' = 0
    · subst hk0
      rw [← hk.inum]
      rfl
    · have := hk.ref
      change 0 < (if k' = 0 then (⟨ROOTINO,1,true,inodeAt d ROOTINO⟩ : Inode) else default).ref
        at this
      rw [if_neg hk0] at this
      exact absurd this (Int.lt_irrefl 0)
  room := ⟨1,by decide,rfl⟩

/-- A file with two bytes. -/
theorem mkfs_files_read_back_two : ∃ d k' off c₁ c₂ c₃, main [([102],[104, 105])] = some d ∧
    run 0 (Fs.dirlookup 0 0 [102]) (rootLocked d) = .ok (some (k',off),c₁) ∧
    run 0 (Fs.ilock k') c₁ = .ok ((),c₂) ∧
    run 0 (Fs.readi 0 k' 0 2) c₂ = .ok ((2,[104, 105]),c₃) := by
  have hfit : Fits [([102],[104, 105])] := ⟨by decide,by decide,by decide,by decide⟩
  obtain ⟨d,hd,h⟩ := mkfs_files_read_back hfit ⟨by decide,by decide,by decide⟩
  obtain ⟨m,-,hmade⟩ := main_made hd (by decide)
  obtain ⟨k',off,c₁,c₂,h₁,h₂,-,-,-,h₃⟩ := h 0 _ rfl 0 0 _
    (reading_rootLocked hmade.superblock)
  obtain ⟨c₃,h₃,-⟩ := h₃ 0 2 (by decide) (by decide)
  exact ⟨d,k',off,c₁,c₂,c₃,hd,h₁,h₂,h₃⟩

end Mkfs
end Xv6
