import Xv6.Lib.Machine
import Xv6.User.EditorFile

/-! # The cursor of the editor

The cached position is consistent after a command, where the command does not move it away: with
the line numbers hidden the display commands do not count, `cut` moves lines under the cursor, and
`p` can ask for the line 0. -/
namespace Xv6.Editor
open Option Editor

/-- The list and the cursor fit together. -/
def Consistent (s : State) : Prop := ∃ L, Linked s L ∧ Cursor s L

/-- The line numbers that a command is given are those of lines. -/
def InRange (s : State) (args : List UInt8) : Name → Prop
  | .insAt => str2Idx args = -1 ∨ 0 ≤ str2Idx args ∧ str2Idx args ≤ s.fileLineNum
  | .modAt => str2Idx args = -1 ∨ 1 ≤ str2Idx args ∧ str2Idx args ≤ s.fileLineNum
  | .d => byteAt args 0 = 0 ∨ ∀ r ∈ delRange s args,
      1 ≤ r.1 ∧ r.1 ≤ s.fileLineNum ∧ 1 ≤ r.2 ∧ r.2 ≤ s.fileLineNum
  | .c => ∀ r ∈ cutRange args, 1 ≤ r.1 ∧ r.1 ≤ s.fileLineNum ∧ 1 ≤ r.2.1 ∧ r.2.1 ≤ s.fileLineNum ∧
      1 ≤ r.2.2 ∧ r.2.2 ≤ s.fileLineNum
  | .l => str2Idx args = -1 ∨ str2Idx args = 0 ∨ 1 ≤ str2Idx args ∧ str2Idx args ≤ s.fileLineNum
  | _ => True

/-- Lines are shown with their numbers, a step back does not end at the line 0, and every number
can be printed. -/
def ShowSafe (s : State) (index lines : ℤ) : Prop :=
  s.fileLineNum = 0 ∨
    s.showLineIdx = true ∧ (lines < 0 → index ≠ 0 → s.headShowLine + lines ≠ 1) ∧
    ∀ r ∈ showStart s index lines, ∀ e ∈ r.2, ∀ j, r.1.currentLine ≤ j → j ≤ e → Printable j

/-- The cursor is not among the lines that `cut` moves. -/
def CutSafe (s : State) (idx1 idx2 tar : ℤ) : Prop :=
  idx1 ≤ idx2 ∧ (tar < idx1 ∨ tar > idx2) →
    tar = idx1 - 1 ∨ (s.currentLine < idx1 ∧ s.currentLine ≤ tar) ∨
      (idx2 < s.currentLine ∧ tar < s.currentLine)

/-- The commands that keep the cursor. -/
def Safe (s : State) (args : List UInt8) : Name → Prop
  | .i => Printable (s.fileLineNum + 1)
  | .insAt => str2Idx args = -1 ∨ Printable (str2Idx args + 1)
  | .d => byteAt args 0 = 0 → s.fileLineNum ≠ 0
  | .m => Printable s.fileLineNum
  | .modAt => str2Idx args = -1 ∨ Printable (str2Idx args)
  | .c => ∀ r ∈ cutRange args, CutSafe s r.1 r.2.1 r.2.2
  | .l => str2Idx args = -1 ∨ if str2Idx args ≠ 0 then ShowSafe s (str2Idx args - 10) 20
      else ShowSafe s 1 s.fileLineNum
  | .n => str2Idx args = -1 ∨ ShowSafe s (s.currentLine - linesArg args / 2) (linesArg args)
  | .p => str2Idx args = -1 ∨ ShowSafe s (s.currentLine + linesArg args / 2) (-linesArg args)
  | .num => True
  | .w => ∀ a ∈ s.nodes, (s.content a).length + 1 < BUF_LINE_LENGTH

variable {s s' : State} {L : List ℕ} {env : Env} {args : List UInt8}

/-- The loop of `showFile` moves the cursor from line to line. -/
theorem Linked.showLoop (h : Linked s L) (hshow : s.showLineIdx = true) {c e fuel : ℕ}
    (hline : s.currentLine = c) (hcur : s.curNode = s.nodeAt L c) (hc : 1 ≤ c) (hce : c ≤ e)
    (he : e ≤ L.length) (hprint : ∀ j : ℕ, c ≤ j → j ≤ e → Printable j)
    (hf : e - c < fuel) : ∃ s', showLoop e fuel s = some s' ∧ Consistent s' := by
  induction fuel generalizing s c with
  | zero => omega
  | succ fuel ih =>
    obtain ⟨str,hstr⟩ := isSome_iff_exists.1
      (idx2Str_isSome (hprint c (Nat.le_refl c) hce))
    have htail : s.curNode ≠ s.tailNode := by
      rw [hcur,← nodeAt_tail (s := s) (L := L)]
      intro heq
      have := h.nodeAt_inj (by omega) (by omega) heq
      omega
    have hcur0 : s.curNode ≠ 0 := by
      rw [hcur]
      exact h.nodeAt_ne_zero (by omega)
    have hcount : countLine s = some { s with currentLine := s.currentLine + 1 } := by
      rw [countLine,if_pos hshow,hline,hstr]
      rfl
    have hnext : s.next s.curNode = s.nodeAt L (c + 1) := by
      rw [hcur]
      exact (h.next_nodeAt (by omega)).1
    rw [showLoop,if_neg htail,if_neg hcur0,hcount]
    simp only [bind_eq_bind,bind_some,hline,hnext]
    -- the state at the next line
    have h' : Linked { s with currentLine := (c : ℤ) + 1, curNode := s.nodeAt L (c + 1) } L :=
      ⟨h.chain,h.nodup,h.used,h.count⟩
    split
    next => exact ⟨_,rfl,L,h',c + 1,rfl,nodeAt_eq (by omega)⟩
    next hle =>
      exact ih h' hshow (c := c + 1) rfl rfl (by omega) (by omega)
        (fun j hj hje => hprint j (by omega) hje) (by omega)

/-- The cursor of `showFile` at a line. -/
structure Shown (s s' : State) (L : List ℕ) (c e : ℕ) : Prop where
  linked : Linked s' L
  shown : s'.showLineIdx = s.showLineIdx
  line : s'.currentLine = c
  cur : s'.curNode = s'.nodeAt L c
  pos : 1 ≤ c
  le : c ≤ e
  stop : e ≤ L.length

theorem showBack_fst (s : State) (index lines : ℤ) :
    ∃ v, (showBack s index lines).1 = { s with headShowLine := v } := by
  unfold showBack
  split
  · exact ⟨_,rfl⟩
  · exact ⟨s.headShowLine,rfl⟩

theorem one_le_showBack {index lines : ℤ} (hindex : index ≠ 0)
    (hsafe : lines < 0 → s.headShowLine + lines ≠ 1) : 1 ≤ (showBack s index lines).2 := by
  unfold showBack
  split
  next hneg =>
    have := hsafe hneg
    dsimp only
    split <;> omega
  next =>
    split <;> omega

theorem showEnd_bounds {index : ℤ} (hle : index ≤ s.fileLineNum) (lines : ℤ) :
    index ≤ showEnd s index lines ∧ showEnd s index lines ≤ s.fileLineNum := by
  unfold showEnd showIndex
  constructor <;> split <;> split at * <;> omega

theorem Linked.showFrom (h : Linked s L) (hc : Cursor s L) {index lines : ℤ} (hpos : 1 ≤ index) :
    showFrom s index lines = some (s,none) ∨
      ∃ s' c, ∃ e : ℕ, showFrom s index lines = some (s',some (e : ℤ)) ∧
        Shown s s' L c e := by
  have hcount := h.count
  by_cases hle : index ≤ s.fileLineNum
  · right
    obtain ⟨c,rfl⟩ : ∃ c : ℕ, index = c := ⟨index.toNat,by omega⟩
    have hfind := h.findNode hc (k := c) (by omega) (by omega)
    have hne : s.nodeAt L c ≠ 0 := h.nodeAt_ne_zero (by omega)
    obtain ⟨hce,hen⟩ := showEnd_bounds hle lines
    obtain ⟨e,he⟩ : ∃ e : ℕ, showEnd s c lines = e :=
      ⟨(showEnd s c lines).toNat,by omega⟩
    refine ⟨{ s with curNode := s.nodeAt L c, currentLine := c, headShowLine := c },c,e,?_,
      ⟨h.chain,h.nodup,h.used,h.count⟩,rfl,rfl,rfl,by omega,by omega,by omega⟩
    rw [Editor.showFrom,hfind,map_some,if_neg hne,he]
  · left
    have hfind : Editor.findNode s index = some 0 := if_pos (by omega)
    rw [Editor.showFrom,hfind,map_some,if_pos rfl]

theorem Linked.showStart (h : Linked s L) (hc : Cursor s L) (hn : s.fileLineNum ≠ 0)
    {index lines : ℤ} (hsafe : lines < 0 → index ≠ 0 → s.headShowLine + lines ≠ 1) :
    (∃ s', showStart s index lines = some (s',none) ∧ Consistent s') ∨
      ∃ s' c, ∃ e : ℕ, showStart s index lines = some (s',some (e : ℤ)) ∧
        Shown s s' L c e := by
  have hcount := h.count
  by_cases h0 : showIndex s index = 0
  · rw [Editor.showStart,if_pos h0]
    refine .inr ⟨{ s with curNode := s.next s.headNode, currentLine := 1, headShowLine := 1 },1,
      L.length,by rw [hcount],⟨h.chain,h.nodup,h.used,h.count⟩,rfl,rfl,?_,Nat.le_refl 1,
      by omega,Nat.le_refl _⟩
    exact (h.next_nodeAt (i := 0) (by omega)).1
  · have hindex : index ≠ 0 := by
      rintro rfl
      exact h0 (if_neg (by omega))
    have hpos := one_le_showBack h0 fun hneg => hsafe hneg hindex
    obtain ⟨v,hv⟩ := showBack_fst s (showIndex s index) lines
    have h' : Linked { s with headShowLine := v } L := ⟨h.chain,h.nodup,h.used,h.count⟩
    rw [Editor.showStart,if_neg h0]
    dsimp only
    rw [hv]
    rcases h'.showFrom hc hpos with hnone | ⟨s',c,e,hsome,hshown⟩
    · exact .inl ⟨_,hnone,L,h',hc⟩
    · exact .inr ⟨s',c,e,hsome,hshown.linked,hshown.shown,hshown.line,hshown.cur,hshown.pos,
        hshown.le,hshown.stop⟩

theorem Linked.showFile (h : Linked s L) (hc : Cursor s L) {index lines : ℤ}
    (hsafe : ShowSafe s index lines) :
    ∃ s', Editor.showFile s index lines = some s' ∧ Consistent s' := by
  unfold Editor.showFile
  split
  next => exact ⟨s,rfl,L,h,hc⟩
  next hn =>
    obtain ⟨hshow,hback,hprint⟩ := hsafe.resolve_left hn
    rcases h.showStart hc hn hback with ⟨s',hs',hcons⟩ | ⟨s',c,e,hs',hs⟩
    · exact ⟨s',by rw [hs']; rfl,hcons⟩
    · have hfuel := hs.linked.length_le
      have hle := hs.le
      have hstop := hs.stop
      obtain ⟨s'',hloop,hcons⟩ := hs.linked.showLoop (hs.shown.trans hshow) hs.line hs.cur hs.pos
        hs.le hs.stop (fun j hj hje => hprint _ hs' e rfl j (by rw [hs.line]; omega) (by omega))
        (show e - c < s'.nodes.length + 1 by omega)
      exact ⟨s'',by rw [hs']; exact hloop,hcons⟩

/-- The cursor is consistent at the first command. -/
theorem consistent_load (env : Env) (oob : UInt8) (reads : List (List UInt8)) :
    Consistent (load env oob reads) := by
  obtain ⟨L,h⟩ := (linked_initList env).loadReads env oob reads
    (List.replicate BUF_LINE_LENGTH 0) none
  refine ⟨L,⟨h.chain,h.nodup,h.used,h.count⟩,1,rfl,?_⟩
  exact (nodeAt_eq (by omega)).trans (congrArg some h.first.symm)

theorem Holds.consistent {ls : List (List UInt8)} (h : Holds s ls) : Consistent s := by
  obtain ⟨L,h,hc,-⟩ := h
  exact ⟨L,h,hc⟩

/-- `del` of lines, or a refusal. -/
theorem del_safe (h : Linked s L) (hc : Cursor s L) (hr : ∀ r ∈ delRange s args,
      1 ≤ r.1 ∧ r.1 ≤ s.fileLineNum ∧ 1 ≤ r.2 ∧ r.2 ≤ s.fileLineNum) :
    ∃ s', del s args = some s' ∧ Consistent s' := by
  by_cases hrefused : ∀ r ∈ delRange s args, r.2 < r.1
  · exact ⟨s,del_refused hrefused,L,h,hc⟩
  · push Not at hrefused
    obtain ⟨⟨i,j⟩,hrange,hij⟩ := hrefused
    obtain ⟨hi,-,hj,hj'⟩ := hr _ hrange
    have hcount := h.count
    obtain ⟨i,rfl⟩ := Int.eq_ofNat_of_zero_le (Int.le_of_lt hi)
    obtain ⟨j,rfl⟩ := Int.eq_ofNat_of_zero_le (Int.le_of_lt hj)
    obtain ⟨s',hs,hh⟩ := h.del hc hrange (by omega) (by omega) (by omega)
    exact ⟨s',hs,hh.consistent⟩

/-- `cut` with the cursor outside, or a refusal. -/
theorem cut_safe (h : Linked s L) (hc : Cursor s L) (hr : InRange s args .c)
    (hs : ∀ r ∈ cutRange args, CutSafe s r.1 r.2.1 r.2.2) :
    ∃ s', cut s args = some s' ∧ Consistent s' := by
  by_cases hrefused : ∀ r ∈ cutRange args, r.2.1 < r.1 ∨ r.1 ≤ r.2.2 ∧ r.2.2 ≤ r.2.1
  · exact ⟨s,cut_refused hrefused,L,h,hc⟩
  · push Not at hrefused
    obtain ⟨⟨i,j,t⟩,hrange,hij,hout⟩ := hrefused
    obtain ⟨hi,-,hj,hj',ht,ht'⟩ := hr _ hrange
    have hsafe := hs _ hrange
    have hcount := h.count
    obtain ⟨c,-,hline,-⟩ := hc.exists_nodeAt
    dsimp only [CutSafe] at hi hj hj' ht ht' hij hout hsafe
    obtain ⟨i,rfl⟩ := Int.eq_ofNat_of_zero_le (Int.le_of_lt hi)
    obtain ⟨j,rfl⟩ := Int.eq_ofNat_of_zero_le (Int.le_of_lt hj)
    obtain ⟨t,rfl⟩ := Int.eq_ofNat_of_zero_le (Int.le_of_lt ht)
    obtain ⟨s',L',hs',h',-,hcur⟩ := h.cut hc hrange (by omega) (by omega) (by omega)
      (by omega) (by omega) (by omega)
    exact ⟨s',hs',L',h',hcur c hline (by omega)⟩

theorem num_eq (s : State) (args : List UInt8) : ∃ b, num s args = { s with showLineIdx := b } := by
  unfold num
  split
  · exact ⟨_,rfl⟩
  · split
    · split
      · exact ⟨_,rfl⟩
      · exact ⟨s.showLineIdx,rfl⟩
    · exact ⟨s.showLineIdx,rfl⟩

abbrev Command := Env × List UInt8 × Name

def step (s : State) (c : Command) : Option State := cmdExec c.1 s c.2.1 c.2.2

theorem consistent_step (h : Consistent s) {c : Command} (hr : InRange s c.2.1 c.2.2)
    (hs : Safe s c.2.1 c.2.2) : ∃ s', step s c = some s' ∧ Consistent s' := by
  obtain ⟨L,h,hc⟩ := h
  obtain ⟨env,args,name⟩ := c
  have hcount := h.count
  have hsame : ∃ s', some s = some s' ∧ Consistent s' := ⟨s,rfl,L,h,hc⟩
  unfold step
  have held : ∀ {o : Option State} {ls : List (List UInt8)}, (∃ s', o = some s' ∧ Holds s' ls) →
      ∃ s', o = some s' ∧ Consistent s' := fun ⟨s',ho,hh⟩ => ⟨s',ho,hh.consistent⟩
  cases name with
  | i =>
    rw [cmdExec,hcount]
    exact held (h.ins hc (Nat.le_refl _) (hcount ▸ hs) _)
  | insAt =>
    by_cases hbad : str2Idx args = -1
    · simpa only [cmdExec,if_pos hbad] using hsame
    · obtain ⟨h0,hle⟩ := hr.resolve_left hbad
      have hp := hs.resolve_left hbad
      simp only [cmdExec,if_neg hbad]
      obtain ⟨k,hk⟩ := Int.eq_ofNat_of_zero_le h0
      rw [hk] at hle hp ⊢
      exact held (h.ins hc (by omega) hp _)
  | d =>
    have hrange : ∀ r ∈ delRange s args,
        1 ≤ r.1 ∧ r.1 ≤ s.fileLineNum ∧ 1 ≤ r.2 ∧ r.2 ≤ s.fileLineNum := by
      intro r hrange
      by_cases hnone : byteAt args 0 = 0
      · have hpos : s.fileLineNum ≠ 0 := hs hnone
        rw [delRange,if_pos hnone] at hrange
        cases hrange
        omega
      · exact hr.resolve_left hnone r hrange
    exact del_safe h hc hrange
  | m =>
    have hpos : L.length ≠ 0 := fun h0 => hs (by rw [hcount,h0]; rfl)
    rw [cmdExec,hcount]
    exact held (h.mod hc (by omega) (Nat.le_refl _) (hcount ▸ hs) _)
  | modAt =>
    by_cases hbad : str2Idx args = -1
    · simpa only [cmdExec,if_pos hbad] using hsame
    · obtain ⟨h1,hle⟩ := hr.resolve_left hbad
      have hp := hs.resolve_left hbad
      simp only [cmdExec,if_neg hbad]
      obtain ⟨k,hk⟩ := Int.eq_ofNat_of_zero_le (Int.le_of_lt h1)
      rw [hk] at h1 hle hp ⊢
      exact held (h.mod hc (by omega) (by omega) hp _)
  | c => exact cut_safe h hc hr hs
  | l =>
    by_cases hbad : str2Idx args = -1
    · simpa only [cmdExec,if_pos hbad] using hsame
    · have hsafe := hs.resolve_left hbad
      simp only [cmdExec,if_neg hbad]
      split
      next hidx => exact h.showFile hc (by rwa [if_pos hidx] at hsafe)
      next hidx => exact h.showFile hc (by rwa [if_neg hidx] at hsafe)
  | n =>
    by_cases hbad : str2Idx args = -1
    · simpa only [cmdExec,if_pos hbad] using hsame
    · simp only [cmdExec,if_neg hbad]
      exact h.showFile hc (hs.resolve_left hbad)
  | p =>
    by_cases hbad : str2Idx args = -1
    · simpa only [cmdExec,if_pos hbad] using hsame
    · simp only [cmdExec,if_neg hbad]
      exact h.showFile hc (hs.resolve_left hbad)
  | num =>
    obtain ⟨b,hb⟩ := num_eq s args
    exact ⟨_,congrArg some hb,L,⟨h.chain,h.nodup,h.used,h.count⟩,hc⟩
  | w =>
    have hfit : ∀ a ∈ L, (s.content a).length + 1 < BUF_LINE_LENGTH :=
      fun a ha => hs a (h.used a (mem_path ha)).1
    rw [cmdExec]
    cases hopen : env.opens
    · rw [saveFile,hopen,if_neg (by simp)]
      exact hsame
    · rw [h.saveFile hfit hopen]
      exact ⟨_,rfl,L,⟨h.chain,h.nodup,h.used,h.count⟩,hc⟩

/-- The commands of a run: line numbers in range, and no display or `cut` that moves the cursor
away. -/
def Keeps (s : State) (c : Command) : Prop := InRange s c.2.1 c.2.2 ∧ Safe s c.2.1 c.2.2

def twoLines : State := load sumEnv 0 [[97, 10, 98, 10]]

theorem Linked.iterate_next {L : List ℕ} (h : Linked s L) {k : ℕ} (hk : k ≤ L.length) :
    s.next^[k] s.headNode = s.nodeAt L k := by
  induction k with
  | zero => rfl
  | succ k ih => rw [Function.iterate_succ_apply',ih (by omega),(h.next_nodeAt (by omega)).1]

/-- Whichever way it goes, `findNode` finds the node that the walk from `headNode` leads to. -/
theorem findNode_counts (h : Consistent s) {index : ℤ} (hlo : 1 ≤ index)
    (hhi : index ≤ s.fileLineNum) : findNode s index = some (s.next^[index.toNat] s.headNode) := by
  obtain ⟨L,hL,hc⟩ := h
  obtain ⟨k,rfl⟩ := Int.eq_ofNat_of_zero_le (show 0 ≤ index by omega)
  rw [hL.count] at hhi
  rw [Int.toNat_natCast,hL.iterate_next (by omega),hL.findNode hc (by omega) (by omega)]

theorem findNode_counts_second :
    Consistent twoLines ∧ findNode twoLines 2 = some (twoLines.next (twoLines.next twoLines.headNode)) :=
  ⟨consistent_load _ _ _, findNode_counts (consistent_load _ _ _) (by decide) (by decide +kernel)⟩

theorem not_consistent (hn : s.fileLineNum = 2) (hline : s.currentLine = 1)
    (hcur : s.curNode = s.tailNode ∨ s.next s.curNode = s.tailNode) : ¬ Consistent s := by
  rintro ⟨L,h,hc⟩
  obtain ⟨c,hclt,hline',hnode⟩ := hc.exists_nodeAt
  have hcount := h.count
  obtain rfl : c = 1 := by omega
  have hlen : L.length = 2 := by omega
  rw [hnode,(h.next_nodeAt (by omega)).1,← nodeAt_tail (s := s) (L := L)] at hcur
  rcases hcur with hcur | hcur
  · have := h.nodeAt_inj (by omega) (by omega) hcur
    omega
  · have := h.nodeAt_inj (by omega) (by omega) hcur
    omega

end Xv6.Editor
