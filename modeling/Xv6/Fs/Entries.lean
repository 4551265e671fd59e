import Xv6.Fs.Contents
import Xv6.Fs.Dir
import Xv6.Lib.SlotTable

/-! # Directories as tables of entries

Names are compared on their first `DIRSIZ` bytes, up to a NUL. -/
namespace Xv6
open SlotTable
open Function (update)
open Dirent (sizeof)

/-- The bytes that `strncpy` makes of a name. -/
def nameKey (s : ℕ → UInt8) : Bytes DIRSIZ := Bytes.tabulate (strncpy s)

/-- `strncmp` compares what `strncpy` would copy. -/
theorem strncmp_eq_zero {n : ℕ} {p q : ℕ → UInt8} :
    strncmp n p q = 0 ↔ ∀ i, i < n → strncpy p i = strncpy q i := by
  induction n generalizing p q with
  | zero => simp [strncmp]
  | succ n ih =>
    have hsplit : (∀ i, i < n + 1 → strncpy p i = strncpy q i) ↔
        p 0 = q 0 ∧ ∀ i, i < n → strncpy p (i + 1) = strncpy q (i + 1) := by
      constructor
      · intro h
        exact ⟨h 0 (by omega),fun i hi => h (i + 1) (by omega)⟩
      · rintro ⟨h0,h⟩ i hi
        cases i with
        | zero => exact h0
        | succ i => exact h i (by omega)
    rw [hsplit]
    unfold strncmp
    by_cases hpq : p 0 = q 0
    · by_cases hp : p 0 = 0
      · rw [if_neg (fun hc => hc.1 hp)]
        refine iff_of_true (by rw [hpq]; omega) ⟨hpq,fun i _ => ?_⟩
        simp only [strncpy]
        rw [if_pos hp,if_pos (hpq ▸ hp)]
      · rw [if_pos ⟨hp,hpq⟩,ih]
        simp only [hpq,true_and,strncpy]
        rw [hpq] at hp
        simp only [if_neg hp]
    · rw [if_neg (fun hc => hpq hc.2)]
      refine iff_of_false (fun hc => hpq ?_) (fun hc => hpq hc.1)
      apply UInt8.toNat_inj.mp
      omega

theorem strncmp_eq_zero_iff {f g : ℕ → UInt8} : strncmp DIRSIZ f g = 0 ↔ nameKey f = nameKey g := by
  rw [strncmp_eq_zero]
  constructor
  · intro h
    refine Bytes.ext fun i hi => ?_
    rw [nameKey,nameKey,Bytes.byte_tabulate _ hi,Bytes.byte_tabulate _ hi,h i hi]
  · intro h i hi
    have := congrArg (fun b => b.byte i) h
    simpa [nameKey,Bytes.byte_tabulate _ hi] using this

theorem namecmp_eq_zero {s : Name} {t : Bytes DIRSIZ} :
    namecmp s t = 0 ↔ nameKey (cstr s) = nameKey t.byte := strncmp_eq_zero_iff

theorem strncpy_congr {f g : ℕ → UInt8} {i : ℕ} (h : ∀ j, j ≤ i → f j = g j) :
    strncpy f i = strncpy g i := by
  induction i generalizing f g with
  | zero => exact h 0 le_rfl
  | succ i ih =>
    simp only [strncpy]
    rw [h 0 (by omega),ih fun j hj => h (j + 1) (by omega)]

theorem strncpy_strncpy (f : ℕ → UInt8) (i : ℕ) : strncpy (strncpy f) i = strncpy f i := by
  induction i generalizing f with
  | zero => rfl
  | succ i ih =>
    rw [strncpy]
    change (if f 0 = 0 then 0 else strncpy (fun j => strncpy f (j + 1)) i)
      = if f 0 = 0 then 0 else strncpy (fun j => f (j + 1)) i
    by_cases h0 : f 0 = 0
    · rw [if_pos h0,if_pos h0]
    · rw [if_neg h0,if_neg h0]
      refine (strncpy_congr fun j _ => ?_).trans (ih fun j => f (j + 1))
      simp only [strncpy,if_neg h0]

/-- The name that `strncpy` has stored is the key of the name. -/
theorem nameKey_nameKey (f : ℕ → UInt8) : nameKey (nameKey f).byte = nameKey f := by
  refine Bytes.ext fun i hi => ?_
  unfold nameKey
  rw [Bytes.byte_tabulate _ hi,Bytes.byte_tabulate _ hi,← strncpy_strncpy f i]
  exact strncpy_congr fun j hj => Bytes.byte_tabulate _ (by omega)

/-- The entry for `inum` that `dirlink` writes. -/
def Dirent.named (name : Name) (inum : ℕ) : Dirent := ⟨UInt16.ofNat inum,nameKey (cstr name)⟩

section Named
variable {name : Name} {inum : ℕ}

theorem Dirent.named_live (name : Name) (h0 : 0 < inum) (hlt : inum < 65536) :
    (Dirent.named name inum).inum.toNat = inum ∧ (Dirent.named name inum).inum ≠ 0 := by
  have hin : (Dirent.named name inum).inum.toNat = inum :=
    UInt16.toNat_ofNat_of_lt' hlt
  refine ⟨hin,fun hc => ?_⟩
  rw [hc] at hin
  change 0 = inum at hin
  omega

theorem Dirent.named_key : nameKey (Dirent.named name inum).name.byte = nameKey (cstr name) :=
  nameKey_nameKey (cstr name)

end Named

def Dirent.bytes (e : Dirent) : List UInt8 := (List.range sizeof).map e.toBytes

@[simp] theorem Dirent.length_bytes (e : Dirent) : e.bytes.length = 16 := by
  simp [bytes,sizeof]

theorem Dirent.bytes_ne_nil (e : Dirent) : e.bytes ≠ [] := by
  intro h
  have := e.length_bytes
  rw [h] at this
  cases this

theorem Dirent.getD_bytes (e : Dirent) {x : ℕ} (h : x < 16) : e.bytes.getD x 0 = e.toBytes x := by
  simp [bytes,sizeof,h,List.getD_eq_getElem?_getD]

namespace Node
variable {n : Node} {e : Dirent} {j m : ℕ}

def entry (n : Node) (j : ℕ) : Dirent := Dirent.ofBytes fun x => n.data (j * sizeof + x)

def count (n : Node) : ℕ := n.size / sizeof

def setEntry (n : Node) (j : ℕ) (e : Dirent) : Node := n.write (j * sizeof) e.bytes

/-- The entries in use: the key of the name and the inode number. -/
def table (n : Node) : SlotTable (Bytes DIRSIZ) ℕ where
  size := n.count
  slot j := if (n.entry j).inum = 0 then none
    else some (nameKey (n.entry j).name.byte,(n.entry j).inum.toNat)

theorem entry_setEntry_self : (n.setEntry j e).entry j = e := by
  rw [← Dirent.ofBytes_toBytes e]
  refine Dirent.ofBytes_congr fun x hx => ?_
  simp only [sizeof] at hx
  simp only [setEntry,write,Dirent.length_bytes,sizeof]
  rw [if_pos (by omega),Nat.add_sub_cancel_left,Dirent.getD_bytes _ hx,Dirent.ofBytes_toBytes]

theorem entry_setEntry_ne (h : m ≠ j) : (n.setEntry j e).entry m = n.entry m := by
  refine Dirent.ofBytes_congr fun x hx => ?_
  simp only [sizeof] at hx
  simp only [setEntry,write,Dirent.length_bytes,sizeof]
  rw [if_neg (by omega)]

theorem count_setEntry : (n.setEntry j e).count = max n.count (j + 1) := by
  unfold count
  simp only [setEntry,write,Dirent.length_bytes,sizeof]
  omega

theorem aligned_setEntry (ha : n.size % sizeof = 0) : (n.setEntry j e).size % sizeof = 0 := by
  unfold sizeof at ha
  simp only [setEntry,write,Dirent.length_bytes,sizeof]
  omega

theorem table_setEntry : (n.setEntry j e).table
    = n.table.put j (if e.inum = 0 then none else some (nameKey e.name.byte,e.inum.toNat)) := by
  unfold table put
  rw [count_setEntry]
  congr 1
  funext i
  by_cases hi : i = j
  · subst hi
    rw [Function.update_self,entry_setEntry_self]
  · rw [Function.update_of_ne hi,entry_setEntry_ne hi]

theorem slot_table (h : (n.entry j).inum ≠ 0) :
    n.table.slot j = some (nameKey (n.entry j).name.byte,(n.entry j).inum.toNat) := if_neg h

theorem slot_table_none : n.table.slot j = none ↔ (n.entry j).inum = 0 := by
  simp [table]

theorem holds_table {name : Name} : n.table.Holds j (nameKey (cstr name)) ↔
    (n.entry j).inum ≠ 0 ∧ namecmp name (n.entry j).name = 0 := by
  rw [namecmp_eq_zero,eq_comm (a := nameKey (cstr name))]
  unfold Holds table
  by_cases h : (n.entry j).inum = 0 <;> simp [h]

def lookup (n : Node) (name : Name) : Option ℕ := n.table.find (nameKey (cstr name))

theorem lookup_eq_some {name : Name} : n.lookup name = some j ↔ j < n.count ∧
    ((n.entry j).inum ≠ 0 ∧ namecmp name (n.entry j).name = 0) ∧
    ∀ i, i < j → ¬ ((n.entry i).inum ≠ 0 ∧ namecmp name (n.entry i).name = 0) := by
  unfold lookup
  rw [find_eq_some,holds_table]
  simp only [holds_table]
  rfl

theorem lookup_eq_none {name : Name} : n.lookup name = none ↔ ∀ j, j < n.count →
    ¬ ((n.entry j).inum ≠ 0 ∧ namecmp name (n.entry j).name = 0) := by
  unfold lookup
  rw [find_eq_none]
  simp only [holds_table]
  rfl

theorem get_of_lookup {name : Name} (h : n.lookup name = some j) :
    n.table.slot j = some (nameKey (cstr name),(n.entry j).inum.toNat) ∧
      n.table.get (nameKey (cstr name)) = some (n.entry j).inum.toNat := by
  obtain ⟨w,hslot,hget⟩ := get_of_find h
  have hw : (n.entry j).inum.toNat = w := by
    have hlive := slot_table (lookup_eq_some.mp h).2.1.1
    rw [hslot] at hlive
    exact (congrArg Prod.snd (Option.some.inj hlive)).symm
  rw [hw]
  exact ⟨hslot,hget⟩

theorem entry_of_get {key : Bytes DIRSIZ} {a : ℕ} (h : n.table.get key = some a) :
    ∃ j, j < n.count ∧ (n.entry j).inum ≠ 0 ∧ (n.entry j).inum.toNat = a := by
  cases hf : n.table.find key with
  | none =>
    rw [get_eq_none.mpr hf] at h
    cases h
  | some j =>
    obtain ⟨w,hslot,hget⟩ := get_of_find hf
    have hlive : (n.entry j).inum ≠ 0 := fun h0 => by
      rw [slot_table_none.mpr h0] at hslot
      cases hslot
    rw [slot_table hlive] at hslot
    refine ⟨j,(find_eq_some.mp hf).1,hlive,?_⟩
    rw [h] at hget
    rw [Option.some.inj hget]
    exact congrArg Prod.snd (Option.some.inj hslot)

section Empty
variable (h0 : n.size = 0)
include h0

theorem count_of_empty : n.count = 0 := by
  unfold count
  rw [h0,Nat.zero_div]

theorem free_of_empty : n.table.free = 0 :=
  Nat.le_zero.mp (n.table.free_le.trans (le_of_eq (count_of_empty h0)))

theorem lookup_of_empty (name : Name) : n.lookup name = none :=
  lookup_eq_none.mpr fun j hj => by rw [count_of_empty h0] at hj; omega

/-- An empty directory after the entry "." has been written. -/
theorem with_dot {a : ℕ} (ha : 0 < a) (hlt : a < 65536) :
    (n.setEntry 0 (Dirent.named dot a)).count = 1 ∧
      (n.setEntry 0 (Dirent.named dot a)).table.free = 1 ∧
      (n.setEntry 0 (Dirent.named dot a)).lookup dotdot = none := by
  have hcount : (n.setEntry 0 (Dirent.named dot a)).count = 1 := by
    rw [count_setEntry,count_of_empty h0]
    rfl
  obtain ⟨-,hlive⟩ := Dirent.named_live dot ha hlt
  refine ⟨hcount,free_eq (le_of_eq hcount.symm) (fun j hj => ?_) fun hc => ?_,
    lookup_eq_none.mpr fun j hj => ?_⟩
  · obtain rfl : j = 0 := by omega
    rw [ne_eq,slot_table_none,entry_setEntry_self]
    exact hlive
  · exact absurd hcount (Nat.ne_of_gt hc)
  · obtain rfl : j = 0 := by omega
    rw [entry_setEntry_self,namecmp_eq_zero,Dirent.named_key]
    exact fun hc => absurd hc.2 (by decide)

end Empty
end Node
end Xv6
