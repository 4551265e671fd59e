import Xv6.Param
import Xv6.Lib.Machine
import Xv6.Lib.Pointers

/-! # `fs.c`: the pointers into the inode cache

Any number of processes run `iget`, `idup` and `iput` on their pointers; a section of `icache.lock`
is one step.  The sleep-locks are left out: whoever has a pointer may write what they protect. -/
namespace Xv6.IcacheRun
open Function List Pointers

structure Slot where
  dev : ℕ
  inum : ℕ
  ref : ℤ
  valid : Bool
  nlink : Int16

def Slot.label (s : Slot) : ℕ × ℕ := (s.dev,s.inum)

/-- The loop of `iget`, and what follows it; there is no result when it panics. -/
def igetLoop (t : Fin NINODE → Slot) (dev inum : ℕ) (empty : Option (Fin NINODE)) :
    List (Fin NINODE) → Option (Fin NINODE × (Fin NINODE → Slot))
  | [] => empty.map fun ip =>
    (ip,update t ip { t ip with dev := dev, inum := inum, ref := 1, valid := false })
  | ip :: l =>
    if (t ip).ref > 0 ∧ (t ip).dev = dev ∧ (t ip).inum = inum then
      some (ip,update t ip { t ip with ref := (t ip).ref + 1 })
    else igetLoop t dev inum (if empty = none ∧ (t ip).ref = 0 then some ip else empty) l

def iget (t : Fin NINODE → Slot) (dev inum : ℕ) : Option (Fin NINODE × (Fin NINODE → Slot)) :=
  igetLoop t dev inum none (finRange NINODE)

/-- A pointer, with how far the `iput` of it has come. -/
inductive Ptr where
  | null
  | has (ip : Fin NINODE)
  /-- `int r = ip->ref` -/
  | test (ip : Fin NINODE)
  /-- `itrunc(ip)` and what follows it -/
  | free (ip : Fin NINODE)
  /-- `ip->ref--` -/
  | drop (ip : Fin NINODE)
  deriving DecidableEq

def Ptr.ip? : Ptr → Option (Fin NINODE)
  | null => none
  | has ip | test ip | free ip | drop ip => some ip

/-- `X` are the variables of the processes that hold pointers. -/
structure World (X : Type) where
  slot : Fin NINODE → Slot
  ptr : X → Ptr

inductive Action (X : Type) where
  | iget (dev inum : ℕ)
  | idup (y : X)
  | write (valid : Bool) (nlink : Int16)
  | iput
  /-- the next step of `iput` -/
  | run

variable {X : Type} [DecidableEq X]

/-- A step of the process that has the pointer `x`. -/
def World.step (w : World X) : X × Action X → Option (World X)
  | (x,a) =>
    match w.ptr x, a with
    | .null, .iget dev inum =>
      (iget w.slot dev inum).map fun (ip,t) => ⟨t,update w.ptr x (.has ip)⟩
    | .has ip, .idup y =>
      if w.ptr y = .null then
        some ⟨update w.slot ip { w.slot ip with ref := (w.slot ip).ref + 1 },
          update w.ptr y (.has ip)⟩
      else none
    | .has ip, .write valid nlink =>
      some ⟨update w.slot ip { w.slot ip with valid := valid, nlink := nlink },w.ptr⟩
    | .has ip, .iput =>
      some ⟨w.slot,update w.ptr x
        (if (w.slot ip).valid ∧ (w.slot ip).nlink = 0 then .test ip else .drop ip)⟩
    | .test ip, .run =>
      some ⟨w.slot,update w.ptr x (if (w.slot ip).ref = 1 then .free ip else .drop ip)⟩
    | .free ip, .run =>
      some ⟨update w.slot ip { w.slot ip with valid := false },update w.ptr x (.drop ip)⟩
    | .drop ip, .run =>
      some ⟨update w.slot ip { w.slot ip with ref := (w.slot ip).ref - 1 },update w.ptr x .null⟩
    | _, _ => none

/-- Static memory. -/
def World.init (X : Type) : World X := ⟨fun _ => ⟨0,0,0,false,0⟩,fun _ => .null⟩

/-- `iget` finds the slot of the inode, or takes one without pointers when there is none. -/
theorem igetLoop_eq_some {t t' : Fin NINODE → Slot} {dev inum : ℕ} {ip : Fin NINODE}
    {empty : Option (Fin NINODE)} {l : List (Fin NINODE)} (he : ∀ e ∈ empty, (t e).ref = 0)
    (h : igetLoop t dev inum empty l = some (ip,t')) :
    (0 < (t ip).ref ∧ (t ip).label = (dev,inum) ∧
        t' = update t ip { t ip with ref := (t ip).ref + 1 }) ∨
      (t ip).ref = 0 ∧ (∀ i ∈ l, 0 < (t i).ref → (t i).label ≠ (dev,inum)) ∧
        t' = update t ip { t ip with dev := dev, inum := inum, ref := 1, valid := false } := by
  induction l generalizing empty with
  | nil =>
    obtain ⟨e,rfl,heq⟩ := Option.map_eq_some_iff.1 h
    cases heq
    exact .inr ⟨he _ rfl,nofun,rfl⟩
  | cons i l ih =>
    rw [igetLoop] at h
    split at h
    next hi =>
      cases h
      exact .inl ⟨hi.1,Prod.ext hi.2.1 hi.2.2,rfl⟩
    next hi =>
      refine (ih ?_ h).imp_right fun ⟨h0,hl,ht⟩ => ⟨h0,forall_mem_cons.2 ⟨fun hpos heq => ?_,hl⟩,ht⟩
      · intro e hmem
        split at hmem
        next h0 => exact Option.some.inj hmem ▸ h0.2
        next => exact he e hmem
      · exact hi ⟨hpos,congrArg Prod.fst heq,congrArg Prod.snd heq⟩

section Run
variable [Fintype X]

/-- The number of pointers to a slot. -/
def World.users (w : World X) (ip : Fin NINODE) : ℤ := count Finset.univ (Ptr.ip? ∘ w.ptr) ip

structure Inv (w : World X) : Prop where
  unique : ∀ i j, 0 < (w.slot i).ref → 0 < (w.slot j).ref →
    (w.slot i).label = (w.slot j).label → i = j
  count : ∀ ip, (w.slot ip).ref = w.users ip

/-- The invariant holds after a step, and a slot in use stays that of its inode. -/
structure Next (w w' : World X) : Prop where
  inv : Inv w'
  label : ∀ i, 0 < (w.slot i).ref → (w'.slot i).label = (w.slot i).label

variable {w w' : World X} {x : X} {ip : Fin NINODE}

omit [DecidableEq X] in
theorem Inv.ref_pos (h : Inv w) (hx : (w.ptr x).ip? = some ip) : 0 < (w.slot ip).ref := by
  rw [h.count]
  exact count_pos (Finset.mem_univ x) hx

/-- The pointer at `x` changes, and `ip->ref` with it. -/
theorem Inv.count_update (h : Inv w) {s : Slot} {c : Ptr} (hslot : w'.slot = update w.slot ip s)
    (hptr : w'.ptr = update w.ptr x c)
    (href : s.ref = (w.slot ip).ref - hit (w.ptr x).ip? ip + hit c.ip? ip)
    (hother : ∀ i, i ≠ ip → hit (w.ptr x).ip? i = hit c.ip? i) (i : Fin NINODE) :
    (w'.slot i).ref = w'.users i := by
  rw [hslot,World.users,hptr,comp_update,Pointers.count_update (Finset.mem_univ x)]
  change _ = w.users i - hit (w.ptr x).ip? i + _
  rw [← h.count]
  by_cases hi : i = ip
  · rw [hi,update_self,href]
  · rw [update_of_ne hi,hother i hi,Int.sub_add_cancel]

/-- A step that leaves every slot to its inode. -/
theorem Inv.keep (h : Inv w) (hpos : 0 < (w.slot ip).ref) {s : Slot} {c : Ptr}
    (hslot : w'.slot = update w.slot ip s) (hptr : w'.ptr = update w.ptr x c)
    (hlab : s.label = (w.slot ip).label)
    (href : s.ref = (w.slot ip).ref - hit (w.ptr x).ip? ip + hit c.ip? ip)
    (hother : ∀ i, i ≠ ip → hit (w.ptr x).ip? i = hit c.ip? i) : Next w w' := by
  have hlabel : ∀ i, (w'.slot i).label = (w.slot i).label := by
    intro i
    by_cases hi : i = ip
    · rw [hslot,hi,update_self,hlab]
    · rw [hslot,update_of_ne hi]
  have hused : ∀ i, 0 < (w'.slot i).ref → 0 < (w.slot i).ref := by
    intro i hi
    by_cases hip : i = ip
    · rwa [hip]
    · rwa [hslot,update_of_ne hip] at hi
  refine ⟨⟨fun i j hi hj he => ?_,h.count_update hslot hptr href hother⟩,fun i _ => hlabel i⟩
  rw [hlabel,hlabel] at he
  exact h.unique i j (hused i hi) (hused j hj) he

/-- A pointer stays where it points. -/
theorem Inv.same (h : Inv w) (hx : (w.ptr x).ip? = some ip) {s : Slot} {c : Ptr}
    (hslot : w'.slot = update w.slot ip s) (hptr : w'.ptr = update w.ptr x c)
    (hlab : s.label = (w.slot ip).label) (href : s.ref = (w.slot ip).ref) (hc : c.ip? = some ip) : Next w w' := by
  refine h.keep (h.ref_pos hx) hslot hptr hlab ?_ fun i _ => ?_
  · rw [hx,hc,href,Int.sub_add_cancel]
  · rw [hx,hc]

/-- `iget` counts the pointer that it returns. -/
theorem Inv.iget (h : Inv w) (hx : w.ptr x = .null) {dev inum : ℕ} {t : Fin NINODE → Slot}
    (hg : iget w.slot dev inum = some (ip,t)) :
    Next w ⟨t,update w.ptr x (.has ip)⟩ := by
  have hother : ∀ i, i ≠ ip → hit (w.ptr x).ip? i = hit (Ptr.has ip).ip? i := by
    intro i hi
    rw [hx]
    exact ((hit_some ip i).trans (if_neg hi)).symm
  have hhit : hit (w.ptr x).ip? ip = 0 := by
    rw [hx]
    rfl
  have hself : hit (Ptr.has ip).ip? ip = 1 := (hit_some ip ip).trans (if_pos rfl)
  obtain ⟨hpos,-,rfl⟩ | ⟨h0,hnone,rfl⟩ := igetLoop_eq_some (by simp) hg
  · exact h.keep hpos rfl rfl rfl (by rw [hhit,hself,Int.sub_zero]) hother
  · refine ⟨⟨?_,h.count_update rfl rfl (by rw [hhit,hself,h0]; rfl) hother⟩,fun i hi => ?_⟩
    · intro i j
      dsimp only
      rw [update_apply,update_apply]
      split <;> split <;> intro hi hj he
      next hi' hj' => rw [hi',hj']
      next => exact absurd he.symm (hnone j (mem_finRange j) hj)
      next => exact absurd he (hnone i (mem_finRange i) hi)
      next => exact h.unique i j hi hj he
    · dsimp only
      rw [update_of_ne]
      rintro rfl
      omega

theorem Inv.step {m : X × Action X} (h : Inv w) (hs : w.step m = some w') : Next w w' := by
  obtain ⟨x,a⟩ := m
  simp only [World.step] at hs
  split at hs
  case h_1 dev inum hx =>
    obtain ⟨⟨ip,t⟩,hg,rfl⟩ := Option.map_eq_some_iff.1 hs
    exact h.iget hx hg
  case h_2 ip y hx =>
    obtain ⟨hy,hs⟩ := Option.ite_none_right_eq_some.1 hs
    cases hs
    refine h.keep (h.ref_pos (x := x) (by rw [hx]; rfl)) rfl rfl rfl ?_ fun i hi => ?_
    · rw [hy]
      simp [Ptr.ip?,hit_some]
    · rw [hy]
      simp [Ptr.ip?,hit_some,hi]
  case h_3 ip valid nlink hx =>
    cases hs
    exact h.same (x := x) (by rw [hx]; rfl) rfl (update_eq_self x w.ptr).symm rfl rfl (by rw [hx]; rfl)
  case h_4 ip hx =>
    cases hs
    exact h.same (by rw [hx]; rfl) (update_eq_self ip w.slot).symm rfl rfl rfl (by split <;> rfl)
  case h_5 ip hx =>
    cases hs
    exact h.same (by rw [hx]; rfl) (update_eq_self ip w.slot).symm rfl rfl rfl (by split <;> rfl)
  case h_6 ip hx =>
    cases hs
    exact h.same (by rw [hx]; rfl) rfl rfl rfl rfl rfl
  case h_7 ip hx =>
    cases hs
    refine h.keep (h.ref_pos (x := x) (by rw [hx]; rfl)) rfl rfl rfl ?_ fun i hi => ?_
    · rw [hx]
      simp [Ptr.ip?,hit_some]
    · rw [hx]
      simp [Ptr.ip?,hit_some,hi]
  case h_8 => cases hs

/-- In every interleaving no two slots in use are for one inode, `ref` is the number of the pointers,
a slot in use stays that of its inode, and a slot that `iget` recycles is not valid. -/
theorem slots_unique_counted (h : Machine.Reach World.step (fun _ _ => True) (World.init X) w) :
    (∀ i j, 0 < (w.slot i).ref → 0 < (w.slot j).ref →
        (w.slot i).dev = (w.slot j).dev → (w.slot i).inum = (w.slot j).inum → i = j) ∧
      (∀ ip, (w.slot ip).ref = w.users ip ∧ 0 ≤ (w.slot ip).ref) ∧
      (∀ m w', w.step m = some w' → ∀ ip, 0 < (w.slot ip).ref →
        (w'.slot ip).dev = (w.slot ip).dev ∧ (w'.slot ip).inum = (w.slot ip).inum) ∧
      ∀ dev inum ip t, iget w.slot dev inum = some (ip,t) →
        0 < (t ip).ref ∧ (t ip).dev = dev ∧ (t ip).inum = inum ∧
          ((w.slot ip).ref = 0 → (t ip).valid = false) := by
  have hinit : Inv (World.init X) := ⟨fun _ _ => nofun,fun _ => count_none.symm⟩
  have hi : Inv w := h.invariant hinit fun _ _ _ hi _ hs => (hi.step hs).inv
  refine ⟨fun i j h1 h2 h3 h4 => hi.unique i j h1 h2 (Prod.ext h3 h4),fun ip => ⟨hi.count ip,?_⟩,
    fun m w' hs ip hip => Prod.mk.inj ((hi.step hs).label ip hip),fun dev inum ip t hg => ?_⟩
  · rw [hi.count]
    exact count_nonneg
  · obtain ⟨hpos,hlab,rfl⟩ | ⟨-,-,rfl⟩ := igetLoop_eq_some (by simp) hg
    · rw [update_self]
      exact ⟨Int.add_pos hpos Int.one_pos,congrArg Prod.fst hlab,congrArg Prod.snd hlab,by omega⟩
    · rw [update_self]
      exact ⟨Int.one_pos,rfl,rfl,fun _ => rfl⟩

end Run

/-- A pointer is duplicated, and put again. -/
def dupAndPut (x y : Fin 2) : List (Fin 2 × Action (Fin 2)) :=
  [(x,.iget 1 7),(x,.idup y),(y,.iput),(y,.run)]

theorem slots_unique_counted_two :
    ∃ w, Machine.exec World.step (World.init (Fin 2)) (dupAndPut 0 1) = some w ∧
      w.users ⟨0,by decide⟩ = 1 := by
  obtain ⟨w,hw,hr⟩ : ∃ w ∈ Machine.exec World.step (World.init (Fin 2)) (dupAndPut 0 1),
      (w.slot ⟨0,by decide⟩).ref = 1 := by decide +kernel
  have hreach : Machine.Reach World.step (fun _ _ => True) _ w :=
    .of_allows .init (by decide +kernel) hw
  exact ⟨w,hw,(((slots_unique_counted hreach).2.1 _).1.symm.trans hr)⟩

end Xv6.IcacheRun
