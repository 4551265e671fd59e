import Mathlib.Data.List.Perm.Subperm
import Xv6.Lib.Links
import Xv6.User.Editor

/-! # The list of lines

What `newNode`, `deleteNode`, `freeList` and the assignments of `cut` do to the list, and that
`findNode` finds the node of a line from any consistent cursor. -/
namespace Xv6.Editor
open Function Links List

/-- The nodes in their order. -/
def State.path (s : State) (L : List ℕ) : List ℕ := s.headNode :: (L ++ [s.tailNode])

/-- The nodes of the lines are `L`: `next` leads through them from `headNode` to `tailNode`, `prev`
leads back, and they are as many as `fileLineNum` says. -/
structure Linked (s : State) (L : List ℕ) : Prop where
  chain : Chain s.next s.prev (s.path L)
  nodup : (s.path L).Nodup
  used : ∀ a ∈ s.path L, a ∈ s.nodes ∧ a ≠ 0
  count : s.fileLineNum = L.length

/-- `curNode` is the node at position `currentLine`. -/
def Cursor (s : State) (L : List ℕ) : Prop :=
  ∃ i : ℕ, s.currentLine = i ∧ (s.path L)[i]? = some s.curNode

/-- The two states differ in the list and the cursor only, and the cursor is at `headNode`. -/
structure Rewound (s s' : State) : Prop where
  head : s'.headNode = s.headNode
  tail : s'.tailNode = s.tailNode
  shown : s'.showLineIdx = s.showLineIdx
  cur : s'.curNode = s'.headNode
  line : s'.currentLine = 0

variable {s s' : State} {L L₁ L₂ B : List ℕ} {a i p x : ℕ} {env : Env}

theorem Rewound.cursor (h : Rewound s s') (L : List ℕ) : Cursor s' L :=
  ⟨0,h.line,by rw [h.cur]; rfl⟩

theorem path_append (s : State) (L₁ L₂ : List ℕ) :
    s.path (L₁ ++ L₂) = (s.headNode :: L₁) ++ (L₂ ++ [s.tailNode]) := by
  simp [State.path]

theorem path_insert (s : State) (L₁ B L₂ : List ℕ) :
    s.path (L₁ ++ (B ++ L₂)) = (s.headNode :: L₁) ++ (B ++ (L₂ ++ [s.tailNode])) := by
  simp [State.path]

theorem length_path (s : State) (L : List ℕ) : (s.path L).length = L.length + 2 := by
  rw [State.path,length_cons,length_append,length_singleton]

theorem mem_path (ha : a ∈ L) : a ∈ s.path L :=
  mem_cons_of_mem _ (mem_append_left _ ha)

theorem exists_head (L : List ℕ) (t : ℕ) : ∃ u, (L ++ [t]).head? = some u ∧ u ∈ L ++ [t] := by
  cases L with
  | nil => exact ⟨t,rfl,by simp⟩
  | cons b L => exact ⟨b,rfl,by simp⟩

theorem Linked.length_le (h : Linked s L) : L.length + 2 ≤ s.nodes.length := by
  have hsub : s.path L ⊆ s.nodes := fun a ha => (h.used a ha).1
  have hlen := (subperm_of_subset h.nodup hsub).length_le
  rwa [length_path] at hlen

theorem Linked.link (h : Linked s (L₁ ++ L₂)) (hp : (s.headNode :: L₁).getLast? = some p)
    (hu : (L₂ ++ [s.tailNode]).head? = some x) : s.next p = x ∧ s.prev x = p := by
  have hchain := h.chain
  rw [path_append] at hchain
  exact (chain_append.1 hchain).2.2 p hp x hu

/-- The new node stands behind `p`. -/
theorem Linked.newNode (env : Env) (h : Linked s (L₁ ++ L₂)) (hp : (s.headNode :: L₁).getLast? = some p) :
    Linked (newNode env s p).1 (L₁ ++ (newNode env s p).2 :: L₂) ∧ Rewound s (newNode env s p).1 ∧
      ∀ a ∈ s.path (L₁ ++ L₂), (newNode env s p).1.content a = s.content a := by
  have hpmem : p ∈ s.path (L₁ ++ L₂) := by
    rw [path_append]
    exact mem_append_left _ (mem_of_getLast? hp)
  have hp0 : p ≠ 0 := (h.used p hpmem).2
  have hnew : env.alloc s.nodes ∉ s.path (L₁ ++ L₂) := fun hmem =>
    env.fresh s.nodes (h.used _ hmem).1
  obtain ⟨u,hu,humem⟩ := exists_head L₂ s.tailNode
  have hupath : u ∈ s.path (L₁ ++ L₂) := by
    rw [path_append]
    exact mem_append_right _ humem
  obtain ⟨hnext,-⟩ := h.link hp hu
  have hu0 : u ≠ 0 := (h.used u hupath).2
  have hperm : (s.path (L₁ ++ ([env.alloc s.nodes] ++ L₂))).Perm
      (env.alloc s.nodes :: s.path (L₁ ++ L₂)) := by
    rw [path_insert,path_append]
    exact perm_middle
  have hnodup : (s.path (L₁ ++ ([env.alloc s.nodes] ++ L₂))).Nodup :=
    hperm.nodup_iff.2 (nodup_cons.2 ⟨hnew,h.nodup⟩)
  have hchain := h.chain
  rw [path_append] at hchain
  rw [path_insert] at hnodup
  have hpaste := hchain.paste (x := env.alloc s.nodes) (y := env.alloc s.nodes)
    chain_singleton hp hu rfl rfl hnodup
  simp only [Editor.newNode,if_neg hp0,hnext,if_pos hu0]
  refine ⟨⟨?_,?_,?_,?_⟩,⟨rfl,rfl,rfl,rfl,rfl⟩,
    fun a ha => update_of_ne (ne_of_mem_of_not_mem ha hnew) _ _⟩
  · rw [Function.update_comm (ne_of_mem_of_not_mem hpmem hnew).symm] at hpaste
    rw [← path_insert] at hpaste
    exact hpaste
  · rw [← path_insert] at hnodup
    exact hnodup
  · intro a ha
    rcases mem_cons.1 (hperm.mem_iff.1 ha) with rfl | ha
    · exact ⟨mem_cons_self,env.ne_null s.nodes⟩
    · exact ⟨mem_cons_of_mem _ (h.used a ha).1,(h.used a ha).2⟩
  · have := h.count
    simp only [length_append,length_cons] at this ⊢
    omega

theorem exists_last (L : List ℕ) (b : ℕ) : ∃ p, (b :: L).getLast? = some p :=
  ⟨_,List.getLast?_eq_some_getLast (by simp)⟩

/-- The node is gone, and the next one is returned. -/
theorem Linked.deleteNode (h : Linked s (L₁ ++ x :: L₂)) :
    Linked (deleteNode s x).1 (L₁ ++ L₂) ∧ Rewound s (deleteNode s x).1 ∧
      (L₂ ++ [s.tailNode]).head? = some (deleteNode s x).2 ∧
      ∀ a ∈ L₁ ++ L₂, (deleteNode s x).1.content a = s.content a := by
  obtain ⟨p,hp⟩ := exists_last L₁ s.headNode
  obtain ⟨q,hq,-⟩ := exists_head L₂ s.tailNode
  have hpath : s.path (L₁ ++ x :: L₂) = (s.headNode :: L₁) ++ ([x] ++ (L₂ ++ [s.tailNode])) :=
    path_insert s L₁ [x] L₂
  have hxmem : x ∈ s.path (L₁ ++ x :: L₂) := by simp [State.path]
  have hnodup := h.nodup
  have hchain := h.chain
  rw [hpath] at hnodup hchain
  have hperm : (s.path (L₁ ++ x :: L₂)).Perm (x :: s.path (L₁ ++ L₂)) := by
    rw [hpath,path_append]
    exact perm_middle
  obtain ⟨hxpath,hnodup'⟩ := nodup_cons.1 (hperm.nodup_iff.1 h.nodup)
  have hxhead : x ≠ s.headNode := fun heq => hxpath (by simp [State.path,heq])
  have hxtail : x ≠ s.tailNode := fun heq => hxpath (by simp [State.path,heq])
  have hx0 : x ≠ 0 := (h.used x hxmem).2
  have hprev : s.prev x = p := (h.link hp rfl).2
  have hnext : s.next x = q := by
    have h' : Linked s ((L₁ ++ [x]) ++ L₂) := by simpa using h
    exact (h'.link (by rw [← cons_append,List.getLast?_concat]) hq).1
  obtain ⟨hcut,-⟩ := hchain.cut hp hq hnodup
  simp only [Editor.deleteNode,hx0,hxhead,hxtail,or_self,if_false,hnext,hprev]
  refine ⟨⟨?_,hnodup',?_,?_⟩,⟨rfl,rfl,rfl,rfl,rfl⟩,hq,fun a ha => ?_⟩
  · rw [← path_append] at hcut
    refine hcut.frame (fun b hb => ?_) fun b hb => ?_
    · exact update_of_ne (ne_of_mem_of_not_mem (dropLast_subset _ hb) hxpath) _ _
    · exact update_of_ne (ne_of_mem_of_not_mem (mem_of_mem_tail hb) hxpath) _ _
  · intro b hb
    have hb' := h.used b (hperm.mem_iff.2 (mem_cons_of_mem _ hb))
    exact ⟨(mem_erase_of_ne (ne_of_mem_of_not_mem hb hxpath)).2 hb'.1,hb'.2⟩
  · have := h.count
    simp only [length_append,length_cons] at this ⊢
    omega
  · exact update_of_ne (ne_of_mem_of_not_mem (mem_path ha) hxpath) _ _

theorem Linked.freeLoop (h : Linked s (L₁ ++ (B ++ L₂))) {t : ℕ}
    (ht : (L₂ ++ [s.tailNode]).head? = some t) (hx : (B ++ (L₂ ++ [s.tailNode])).head? = some x)
    {fuel : ℕ} (hf : B.length < fuel) :
    ∃ s', freeLoop t fuel s x = some s' ∧ Linked s' (L₁ ++ L₂) ∧ (B ≠ [] → Rewound s s') ∧
      ∀ a ∈ L₁ ++ L₂, s'.content a = s.content a := by
  induction B generalizing s x fuel with
  | nil =>
    obtain ⟨fuel,rfl⟩ : ∃ f, fuel = f + 1 := ⟨fuel - 1,by omega⟩
    obtain rfl : t = x := Option.some.inj (ht.symm.trans hx)
    exact ⟨s,by rw [Editor.freeLoop,if_pos rfl],h,fun hne => absurd rfl hne,fun _ _ => rfl⟩
  | cons b B ih =>
    obtain ⟨fuel,rfl⟩ : ∃ f, fuel = f + 1 := ⟨fuel - 1,by omega⟩
    obtain rfl : b = x := Option.some.inj hx
    rw [cons_append] at h
    obtain ⟨hdel,hrew,hnext,hcont⟩ := h.deleteNode
    have hbt : b ≠ t := by
      have hnodup := h.nodup
      rw [show s.path (L₁ ++ b :: (B ++ L₂)) = _ from path_insert s L₁ [b] (B ++ L₂)] at hnodup
      have hb : b ∉ (B ++ L₂) ++ [s.tailNode] :=
        (nodup_cons.1 (nodup_append.1 hnodup).2.1).1
      rintro rfl
      rw [append_assoc] at hb
      exact hb (mem_append_right _ (mem_of_head? ht))
    rw [← hrew.tail] at ht hnext
    rw [append_assoc] at hnext
    have hn0 : (Editor.deleteNode s b).2 ≠ 0 := by
      refine (hdel.used _ ?_).2
      rw [path_insert]
      exact mem_append_right _ (mem_of_head? hnext)
    have hfuel : B.length < fuel := by
      rw [length_cons] at hf
      omega
    obtain ⟨s',hs',hlinked,hrew',hcont'⟩ := ih hdel ht hnext hfuel
    refine ⟨s',?_,hlinked,fun _ => ?_,fun a ha => ?_⟩
    · rw [Editor.freeLoop,if_neg hbt]
      simp only [if_neg hn0]
      exact hs'
    · by_cases hB : B = []
      · subst hB
        obtain rfl : t = (Editor.deleteNode s b).2 := Option.some.inj (ht.symm.trans hnext)
        cases fuel with
        | zero => simp at hf
        | succ fuel =>
          rw [Editor.freeLoop,if_pos rfl] at hs'
          cases hs'
          exact hrew
      · have hr := hrew' hB
        exact ⟨hr.head.trans hrew.head,hr.tail.trans hrew.tail,hr.shown.trans hrew.shown,hr.cur,
          hr.line⟩
    · rw [hcont' a ha]
      rcases mem_append.1 ha with ha | ha
      · exact hcont a (mem_append_left _ ha)
      · exact hcont a (mem_append_right _ (mem_append_right _ ha))

/-- The assignments of `cut` move the block behind `t`. -/
theorem Linked.relink {A C D1 D2 : List ℕ} {t y : ℕ} (h : Linked s (A ++ (B ++ C)))
    (hD : A ++ C = D1 ++ D2) (ht : (s.headNode :: D1).getLast? = some t) (hx : B.head? = some x)
    (hy : B.getLast? = some y) : Linked (relink s x y t) (D1 ++ (B ++ D2)) := by
  obtain ⟨p,hp⟩ := exists_last A s.headNode
  obtain ⟨q,hq,-⟩ := exists_head C s.tailNode
  obtain ⟨u,hu,-⟩ := exists_head D2 s.tailNode
  have hpath := path_insert s A B C
  have hnodup := h.nodup
  have hchain := h.chain
  rw [hpath] at hnodup hchain
  obtain ⟨hcut,hB⟩ := hchain.cut hp hq hnodup
  have hrest : (s.headNode :: A) ++ (C ++ [s.tailNode]) =
      (s.headNode :: D1) ++ (D2 ++ [s.tailNode]) := by
    rw [← path_append,← path_append,hD]
  rw [hrest] at hcut
  have hperm : (s.path (D1 ++ (B ++ D2))).Perm (s.path (A ++ (B ++ C))) := by
    have hcomm : ∀ X Y : List ℕ, (X ++ (B ++ Y)).Perm (B ++ (X ++ Y)) := by
      intro X Y
      rw [← append_assoc,← append_assoc]
      exact perm_append_comm.append_right Y
    refine ((hcomm D1 D2).trans ?_).append_right _ |>.cons _
    rw [← hD]
    exact (hcomm A C).symm
  have hnodup' : (s.path (D1 ++ (B ++ D2))).Nodup := hperm.nodup_iff.2 h.nodup
  rw [path_insert] at hnodup'
  -- the pointers as `cut` reads them
  have hxB : x ∈ B := mem_of_head? hx
  have hyB : y ∈ B := mem_of_getLast? hy
  obtain ⟨-,hBC,hdA⟩ := nodup_append.1 hnodup
  have hpy : y ≠ p := (hdA p (mem_of_getLast? hp) y (mem_append_left _ hyB)).symm
  have hprev : s.prev x = p := by
    refine (h.link hp ?_).2
    rw [append_assoc,List.head?_append,hx]
    rfl
  have hnext : s.next y = q := by
    have h' : Linked s ((A ++ B) ++ C) := by simpa using h
    refine (h'.link ?_ hq).1
    rw [← cons_append,List.getLast?_append,hy]
    rfl
  have hnext' : update s.next p q t = u := ((chain_append.1 hcut).2.2 t ht u hu).1
  have hpaste := hcut.paste hB ht hu hx hy hnodup'
  refine ⟨?_,?_,?_,?_⟩
  · rw [← path_insert] at hpaste
    simp only [Editor.relink,hprev,hnext,update_of_ne hpy,hnext']
    exact hpaste
  · rw [← path_insert] at hnodup'
    exact hnodup'
  · intro a ha
    exact h.used a (hperm.mem_iff.1 ha)
  · have hcount : s.fileLineNum = (A ++ (B ++ C)).length := h.count
    have hlen := congrArg List.length hD
    simp only [length_append] at hcount hlen ⊢
    change s.fileLineNum = _
    omega

/-- The node at a position. -/
def State.nodeAt (s : State) (L : List ℕ) (i : ℕ) : ℕ := (s.path L).getD i 0

theorem nodeAt_zero : s.nodeAt L 0 = s.headNode := rfl

theorem nodeAt_tail : s.nodeAt L (L.length + 1) = s.tailNode := by
  simp [State.nodeAt,State.path]

theorem nodeAt_eq (hi : i < L.length + 2) : (s.path L)[i]? = some (s.nodeAt L i) := by
  rw [State.nodeAt,getD_eq_getElem?_getD,
    List.getElem?_eq_getElem (by rw [length_path]; exact hi),Option.getD_some]

theorem Linked.next_nodeAt (h : Linked s L) (hi : i < L.length + 1) :
    s.next (s.nodeAt L i) = s.nodeAt L (i + 1) ∧ s.prev (s.nodeAt L (i + 1)) = s.nodeAt L i := by
  have hlen : i + 1 < (s.path L).length := by
    rw [length_path]
    omega
  have hlink := h.chain.getElem hlen
  simp only [State.nodeAt,getD_eq_getElem?_getD,List.getElem?_eq_getElem hlen,
    List.getElem?_eq_getElem (Nat.lt_of_succ_lt hlen),Option.getD_some]
  exact hlink

theorem Linked.nodeAt_inj (h : Linked s L) {j : ℕ} (hi : i < L.length + 2) (hj : j < L.length + 2)
    (heq : s.nodeAt L i = s.nodeAt L j) : i = j := by
  apply (List.getElem?_inj (by rwa [length_path]) h.nodup).1
  rw [nodeAt_eq hi,nodeAt_eq hj,heq]

theorem Linked.nodeAt_ne_zero (h : Linked s L) (hi : i < L.length + 2) : s.nodeAt L i ≠ 0 :=
  (h.used _ (mem_of_getElem? (nodeAt_eq hi))).2

theorem walk_arrived {stop : ℕ → Option Bool} {step : ℕ → ℕ} {d k : ℤ} {now fuel : ℕ}
    (hstop : stop now ≠ none) : walk stop step d k (fuel + 1) now k = some now := by
  rw [walk]
  split
  next h => exact absurd h hstop
  next => rfl
  next => rw [if_pos rfl]

theorem walk_step {stop : ℕ → Option Bool} {step : ℕ → ℕ} {d j k : ℤ} {now fuel : ℕ}
    (hstop : stop now = some false) (hjk : j ≠ k) (hnow : now ≠ 0) :
    walk stop step d k (fuel + 1) now j = walk stop step d k fuel (step now) (j + d) := by
  rw [walk,hstop]
  simp only [if_neg hjk,if_neg hnow]

/-- A loop of `findNode` towards `tailNode`. -/
theorem Linked.walk_up (h : Linked s L) {stop : ℕ → Option Bool} {j k fuel : ℕ} (hjk : j ≤ k)
    (hk : k < L.length + 2) (hstop : ∀ i, j ≤ i → i < k → stop (s.nodeAt L i) = some false)
    (hlast : stop (s.nodeAt L k) ≠ none) (hf : k - j < fuel) :
    walk stop s.next 1 k fuel (s.nodeAt L j) j = some (s.nodeAt L k) := by
  induction fuel generalizing j with
  | zero => omega
  | succ fuel ih =>
    rcases Nat.eq_or_lt_of_le hjk with rfl | hlt
    · exact walk_arrived hlast
    · rw [walk_step (hstop j (Nat.le_refl _) hlt) (by omega) (h.nodeAt_ne_zero (by omega)),
        (h.next_nodeAt (by omega)).1]
      exact_mod_cast ih hlt (fun i h1 h2 => hstop i (by omega) h2) (by omega)

/-- A loop of `findNode` towards `headNode`. -/
theorem Linked.walk_down (h : Linked s L) {stop : ℕ → Option Bool} {j k fuel : ℕ} (hkj : k ≤ j)
    (hj : j < L.length + 2) (hstop : ∀ i, k < i → i ≤ j → stop (s.nodeAt L i) = some false)
    (hlast : stop (s.nodeAt L k) ≠ none) (hf : j - k < fuel) :
    walk stop s.prev (-1) k fuel (s.nodeAt L j) j = some (s.nodeAt L k) := by
  induction fuel generalizing j with
  | zero => omega
  | succ fuel ih =>
    rcases Nat.eq_or_lt_of_le hkj with rfl | hlt
    · exact walk_arrived hlast
    · obtain ⟨j,rfl⟩ : ∃ i, j = i + 1 := ⟨j - 1,by omega⟩
      rw [walk_step (hstop _ hlt (Nat.le_refl _)) (by omega) (h.nodeAt_ne_zero hj),
        (h.next_nodeAt (by omega)).2,show ((j + 1 : ℕ) : ℤ) + -1 = j by omega]
      exact ih (by omega) (by omega) (fun i h1 h2 => hstop i h1 (by omega)) (by omega)

/-- A pointer of a node that leads to another position than `x`'s. -/
theorem Linked.fieldIs_nodeAt (h : Linked s L) {field : ℕ → ℕ} {j k : ℕ} (hi : i < L.length + 2)
    (hj : j < L.length + 2) (hk : k < L.length + 2) (hfield : field (s.nodeAt L i) = s.nodeAt L j)
    (hjk : j ≠ k) : fieldIs field (s.nodeAt L k) (s.nodeAt L i) = some false := by
  rw [fieldIs,if_neg (h.nodeAt_ne_zero hi),hfield,
    decide_eq_false fun heq => hjk (h.nodeAt_inj hj hk heq)]

theorem Linked.fieldIs_ne_none (h : Linked s L) {field : ℕ → ℕ} (hi : i < L.length + 2) :
    fieldIs field x (s.nodeAt L i) ≠ none := by
  rw [fieldIs,if_neg (h.nodeAt_ne_zero hi)]
  exact Option.some_ne_none _

theorem Cursor.exists_nodeAt (hc : Cursor s L) :
    ∃ c, c < L.length + 2 ∧ s.currentLine = c ∧ s.curNode = s.nodeAt L c := by
  obtain ⟨c,hline,hget⟩ := hc
  have hlt : c < L.length + 2 := by
    rw [← length_path s L]
    exact (List.getElem?_eq_some_iff.1 hget).1
  rw [nodeAt_eq hlt] at hget
  exact ⟨c,hlt,hline,(Option.some.inj hget).symm⟩

/-- From a consistent cursor `findNode` finds the node of every line. -/
theorem Linked.findNode (h : Linked s L) (hc : Cursor s L) {k : ℕ} (hk : 1 ≤ k)
    (hk' : k ≤ L.length) : findNode s k = some (s.nodeAt L k) := by
  obtain ⟨c,hclt,hline,hcur⟩ := hc.exists_nodeAt
  have hcount := h.count
  have hfuel := h.length_le
  have hne : ∀ i, i < L.length + 2 → i ≠ c →
      some (decide (s.nodeAt L i = s.nodeAt L c)) = some false :=
    fun i hi hic => congrArg some (decide_eq_false fun heq => hic (h.nodeAt_inj hi hclt heq))
  rw [Editor.findNode,if_neg (by omega),hline,hcount,hcur]
  split
  next hle =>
    split
    next hnear =>
      have hfirst : s.next s.headNode = s.nodeAt L 1 := by
        rw [← nodeAt_zero]
        exact (h.next_nodeAt (by omega)).1
      rw [hfirst]
      exact h.walk_up hk (by omega) (fun i _ hi => hne i (by omega) (by omega))
        (Option.some_ne_none _) (by omega)
    next hnear =>
      refine h.walk_down (by omega) (by omega) (fun i hki hic => ?_)
        (h.fieldIs_ne_none (by omega)) (by omega)
      obtain ⟨i,rfl⟩ : ∃ j, i = j + 1 := ⟨i - 1,by omega⟩
      rw [← nodeAt_zero (s := s) (L := L)]
      exact h.fieldIs_nodeAt (by omega) (j := i) (by omega) (by omega)
        (h.next_nodeAt (by omega)).2 (by omega)
  next hgt =>
    split
    next hnear =>
      refine h.walk_up (by omega) (by omega) (fun i hci hik => ?_)
        (h.fieldIs_ne_none (by omega)) (by omega)
      rw [← nodeAt_tail (s := s) (L := L)]
      exact h.fieldIs_nodeAt (by omega) (j := i + 1) (by omega) (by omega)
        (h.next_nodeAt (by omega)).1 (by omega)
    next hnear =>
      have hlast : s.prev s.tailNode = s.nodeAt L L.length := by
        rw [← nodeAt_tail (s := s) (L := L)]
        exact (h.next_nodeAt (by omega)).2
      rw [hlast]
      exact h.walk_down hk' (by omega) (fun i hi hi' => hne i (by omega) (by omega))
        (Option.some_ne_none _) (by omega)

end Xv6.Editor
