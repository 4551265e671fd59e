import Xv6.Fs.Entries
import Mathlib.Data.List.TakeWhile

/-! # Paths and their resolution

The elements of a path, and the walk along them through the directories. -/
namespace Xv6
open List Option

/-- The maximal runs of bytes other than '/'. -/
def pathRuns (path : List UInt8) : List (List UInt8) := (path.splitOn 47).filter fun s => s ≠ []

/-- The path elements, each cut to `DIRSIZ` bytes. -/
def components (path : List UInt8) : List Name := (pathRuns path).map (·.take DIRSIZ)

section Split
variable {path rest : List UInt8} {name : Name}

theorem pathRuns_nil : pathRuns [] = [] := by simp [pathRuns]

theorem pathRuns_slash : pathRuns (47 :: path) = pathRuns path := by
  unfold pathRuns List.splitOn
  have hnil : ∀ x ∈ ([] : List UInt8), (x == 47) = false := nofun
  have := splitOnP_append_cons_of_forall_mem hnil (47 : UInt8) (by simp) path
  rw [nil_append] at this
  rw [this,filter_cons_of_neg (by simp)]

theorem pathRuns_dropWhile : pathRuns (path.dropWhile (· == 47)) = pathRuns path := by
  induction path with
  | nil => rfl
  | cons c path ih =>
    rw [dropWhile_cons]
    split
    · rename_i hc
      obtain rfl : c = 47 := by simpa using hc
      rw [ih,pathRuns_slash]
    · rfl

theorem pathRuns_cons {c : UInt8} (hc : c ≠ 47) : pathRuns (c :: path)
    = (c :: path).takeWhile (· != 47) :: pathRuns ((c :: path).dropWhile (· != 47)) := by
  have hno : ∀ x ∈ (c :: path).takeWhile (· != 47), (x == 47) = false := by
    intro x hx
    have := mem_takeWhile_imp hx
    simpa using this
  have hne : (c :: path).takeWhile (· != 47) ≠ [] := by
    rw [takeWhile_cons_of_pos (by simpa using hc)]
    exact cons_ne_nil _ _
  have happ := takeWhile_append_dropWhile (p := (· != 47)) (l := c :: path)
  generalize (c :: path).takeWhile (· != 47) = w at happ hno hne
  generalize hr : (c :: path).dropWhile (· != 47) = r at happ
  rw [← happ]
  cases r with
  | nil =>
    rw [append_nil,pathRuns_nil]
    unfold pathRuns List.splitOn
    rw [splitOnP_eq_singleton hno,filter_cons_of_pos (by simpa using hne)]
    rfl
  | cons x r =>
    obtain rfl : x = 47 := by
      have := List.head?_dropWhile_not (· != 47) (c :: path)
      rw [hr] at this
      simpa using this
    rw [pathRuns_slash]
    unfold pathRuns List.splitOn
    rw [splitOnP_append_cons_of_forall_mem hno 47 (by simp),
      filter_cons_of_pos (by simpa using hne)]

theorem skipelem_none (h : skipelem path = none) : components path = [] := by
  unfold skipelem at h
  dsimp only at h
  split at h
  · rename_i h0
    unfold components
    rw [← pathRuns_dropWhile,h0,pathRuns_nil]
    rfl
  · cases h

theorem skipelem_some (h : skipelem path = some (name,rest)) :
    components path = name :: components rest ∧ rest.length < path.length ∧
      (rest = [] ↔ components rest = []) := by
  unfold skipelem at h
  dsimp only at h
  split at h
  · cases h
  rename_i h0
  obtain ⟨rfl,rfl⟩ := Prod.ext_iff.mp (Option.some.inj h)
  obtain ⟨c,s,hs⟩ := exists_cons_of_ne_nil h0
  have hc : c ≠ 47 := by
    have := List.head?_dropWhile_not (· == 47) path
    rw [hs] at this
    simpa using this
  have hle : (c :: s).length ≤ path.length := by
    rw [← hs]
    exact length_dropWhile_le ..
  dsimp only
  rw [hs]
  refine ⟨?_,?_,?_⟩
  · unfold components
    rw [← pathRuns_dropWhile,hs,pathRuns_cons hc,pathRuns_dropWhile]
    rfl
  · rw [dropWhile_cons_of_pos (by simpa using hc)]
    have h1 := length_dropWhile_le (· == 47) (s.dropWhile (· != 47))
    have h2 := length_dropWhile_le (· != 47) s
    simp only [length_cons] at hle
    omega
  · constructor
    · intro hr
      rw [hr]
      rfl
    · intro hr
      by_contra hne
      obtain ⟨d,t,ht⟩ := exists_cons_of_ne_nil hne
      have hd : d ≠ 47 := by
        have := List.head?_dropWhile_not (· == 47) ((c :: s).dropWhile (· != 47))
        rw [ht] at this
        simpa using this
      unfold components at hr
      rw [ht,pathRuns_cons hd] at hr
      cases hr

end Split

def dirLookup (fs : ℕ → Option Node) (i : ℕ) (name : Name) : Option ℕ := do
  let n ← fs i
  if n.type = T_DIR then n.table.get (nameKey (cstr name)) else none

/-- The walk of `namex` along path elements from inode `i`. -/
def walkPath (fs : ℕ → Option Node) (nameiparent : Bool) : ℕ → List Name → Option (ℕ × Name)
  | i, [] => if nameiparent then none else some (i,[])
  | i, name :: names =>
    match fs i with
    | none => none
    | some n =>
      if n.type ≠ T_DIR then none
      else if nameiparent ∧ names = [] then some (i,name)
      else (n.table.get (nameKey (cstr name))).bind fun i => walkPath fs nameiparent i names

section Fold
variable {fs : ℕ → Option Node} {i : ℕ} {names : List Name}

def IsDir (fs : ℕ → Option Node) (i : ℕ) : Prop := ∃ n, fs i = some n ∧ n.type = T_DIR

theorem walkPath_false : walkPath fs false i names
    = (names.foldlM (dirLookup fs) i).map fun i => (i,[]) := by
  induction names generalizing i with
  | nil => rfl
  | cons name names ih =>
    rw [foldlM_cons,walkPath,dirLookup]
    cases fs i with
    | none => rfl
    | some n =>
      by_cases ht : n.type = T_DIR
      · simp only [ne_eq,ht,not_true_eq_false,if_false,Bool.false_eq_true,false_and,
          bind_eq_bind,bind_some,if_true]
        cases n.table.get (nameKey (cstr name)) with
        | none => rfl
        | some a => exact ih
      · simp [ht]

/-- The parent is the result of the walk along all elements but the last, if it is a
directory. -/
theorem walkPath_true {d : ℕ} {name : Name} : walkPath fs true i names = some (d,name) ↔
    names.getLast? = some name ∧ names.dropLast.foldlM (dirLookup fs) i = some d ∧ IsDir fs d := by
  induction names generalizing i with
  | nil => simp [walkPath]
  | cons x names ih =>
    rw [walkPath]
    cases names with
    | nil =>
      simp only [List.getLast?_singleton,dropLast_singleton,foldlM_nil,IsDir]
      cases hi : fs i with
      | none =>
        refine iff_of_false nofun ?_
        rintro ⟨-,h2,m,h3,-⟩
        rw [← Option.some.inj h2,hi] at h3
        cases h3
      | some n =>
        by_cases ht : n.type = T_DIR
        · simp only [ne_eq,ht,not_true_eq_false,if_false,and_self,if_true]
          constructor
          · rintro ⟨rfl,rfl⟩
            exact ⟨rfl,rfl,n,hi,ht⟩
          · rintro ⟨h1,h2,-⟩
            rw [Option.some.inj h1,← Option.some.inj h2]
        · simp only [ne_eq,ht,not_false_eq_true,if_true]
          refine iff_of_false nofun ?_
          rintro ⟨-,h2,m,h3,h4⟩
          rw [← Option.some.inj h2,hi] at h3
          obtain rfl := Option.some.inj h3
          exact ht h4
    | cons y names =>
      rw [List.getLast?_cons_cons,dropLast_cons_cons,foldlM_cons,dirLookup]
      cases fs i with
      | none => simp
      | some n =>
        by_cases ht : n.type = T_DIR
        · simp only [ne_eq,ht,not_true_eq_false,if_false,true_and,reduceCtorEq,
            bind_eq_bind,bind_some,if_true]
          cases n.table.get (nameKey (cstr x)) with
          | none => simp
          | some a => exact ih
        · simp [ht]

theorem walkPath_congr {fs' : ℕ → Option Node} {np : Bool}
    (h : ∀ a n, n.type = T_DIR → (fs a = some n ↔ fs' a = some n)) :
    walkPath fs np i names = walkPath fs' np i names := by
  induction names generalizing i with
  | nil => rfl
  | cons name names ih =>
    have hskip : ∀ gs : ℕ → Option Node, (¬ ∃ n, n.type = T_DIR ∧ gs i = some n) →
        walkPath gs np i (name :: names) = none := by
      intro gs hno
      rw [walkPath]
      cases hi : gs i with
      | none => rfl
      | some n => exact if_pos fun ht => hno ⟨n,ht,hi⟩
    by_cases hd : ∃ n, n.type = T_DIR ∧ fs i = some n
    · obtain ⟨n,ht,hn⟩ := hd
      rw [walkPath,walkPath,hn,(h i n ht).mp hn]
      dsimp only
      rw [if_neg (not_not.mpr ht),if_neg (not_not.mpr ht)]
      split
      · rfl
      · exact congrArg _ (funext fun _ => ih)
    · rw [hskip fs hd,hskip fs' fun ⟨n,ht,hn⟩ => hd ⟨n,ht,(h i n ht).mpr hn⟩]

/-- What a walk reaches is where it starts or what an entry names. -/
theorem walkPath_false_ne_none {a : ℕ} {nm : Name} (hi : fs i ≠ none)
    (hal : ∀ d n k b, fs d = some n → n.type = T_DIR → n.table.get k = some b → fs b ≠ none)
    (h : walkPath fs false i names = some (a,nm)) : fs a ≠ none := by
  induction names generalizing i with
  | nil =>
    obtain ⟨rfl,-⟩ := Prod.mk.inj (Option.some.inj h)
    exact hi
  | cons name names ih =>
    rw [walkPath] at h
    cases hn : fs i with
    | none => exact absurd hn hi
    | some n =>
      rw [hn] at h
      dsimp only at h
      by_cases ht : n.type = T_DIR
      · rw [if_neg (not_not.mpr ht),if_neg (by simp)] at h
        obtain ⟨b,hb,hrest⟩ := bind_eq_some_iff.mp h
        exact ih (hal i n _ b hn ht hb) hrest
      · rw [if_pos ht] at h
        cases h

end Fold
end Xv6
