import Xv6.User.EditorLines

/-! # The file of the editor

What `saveFile` writes, and the list that `loadFile` builds. -/
namespace Xv6.Editor
open List Editor

variable {s : State} {L : List ℕ} {env : Env}

/-- Each line with a newline behind it. -/
def fileText (ls : List (List UInt8)) : List UInt8 := (ls.map (· ++ [10])).flatten

/-- `saveFile` comes to an end where every line fits into the buffer: a step writes a line into the
buffer, or empties it. -/
theorem Linked.saveLoop (h : Linked s L)
    (hfit : ∀ a ∈ L, (s.content a).length + 1 < BUF_LINE_LENGTH) {j fuel : ℕ}
    {buf : List UInt8} (out : List UInt8) (hj : j ≤ L.length)
    (hf : 2 * (L.length - j) + (if buf = [] then 0 else 1) < fuel) :
    saveLoop s fuel (s.nodeAt L (j + 1)) buf out =
      some (out ++ buf ++ fileText (s.lines (L.drop j))) := by
  induction fuel generalizing j buf out with
  | zero => omega
  | succ fuel ih =>
    by_cases htail : j = L.length
    · subst htail
      rw [Editor.saveLoop,nodeAt_tail,if_pos rfl,drop_length]
      simp [State.lines,fileText]
    · have hlt : j < L.length := by omega
      have hne : s.nodeAt L (j + 1) ≠ s.tailNode := by
        rw [← nodeAt_tail (s := s) (L := L)]
        intro heq
        have := h.nodeAt_inj (by omega) (by omega) heq
        omega
      have hnode : L.get ⟨j,hlt⟩ = s.nodeAt L (j + 1) :=
        Option.some.inj ((List.getElem?_eq_getElem hlt).symm.trans (getElem?_eq_nodeAt s hlt))
      rw [Editor.saveLoop,if_neg hne,if_neg (h.nodeAt_ne_zero (by omega)),
        (h.next_nodeAt (by omega)).1]
      split
      next =>
        rw [ih _ (by omega) (by simp at hf ⊢; omega),drop_eq_getElem_cons hlt,← hnode]
        simp [State.lines,fileText,-map_drop,-getElem_cons_drop]
      next hfull =>
        have hbuf : buf ≠ [] := by
          rintro rfl
          have := hfit _ (hnode ▸ get_mem ..)
          rw [length_nil] at hfull
          omega
        rw [if_neg hbuf] at hf
        rw [ih _ hj (by simp; omega),append_nil]

theorem Linked.saveFile (h : Linked s L)
    (hfit : ∀ a ∈ L, (s.content a).length + 1 < BUF_LINE_LENGTH) (hopen : env.opens = true) :
    saveFile env s = some ({ s with isDirty := false },fileText (s.lines L)) := by
  have hfuel : 2 * (L.length - 0) + (if ([] : List UInt8) = [] then 0 else 1) <
      2 * s.nodes.length + 1 := by
    have := h.length_le
    rw [if_pos rfl]
    omega
  rw [Editor.saveFile,if_pos hopen,h.first,h.saveLoop hfit [] (Nat.zero_le _) hfuel]
  rfl

theorem saveLoop_stuck {now : ℕ} (hn : now ≠ s.tailNode)
    (hlong : BUF_LINE_LENGTH ≤ (s.content now).length + 1) (fuel : ℕ) (out : List UInt8) :
    saveLoop s fuel now [] out = none := by
  induction fuel generalizing out with
  | zero => rfl
  | succ fuel ih =>
    have hfull : ¬ ([] : List UInt8).length + (s.content now).length + 1 < BUF_LINE_LENGTH := by
      rw [length_nil]
      omega
    rw [saveLoop,if_neg hn,if_neg hfull,ih,ite_self]

theorem Linked.lineNode (env : Env) (h : Linked s L) (scan : Option ℕ) :
    ∃ L', Linked (lineNode env s scan).1 L' := by
  cases scan with
  | none =>
    obtain ⟨p,hp⟩ := exists_last L s.headNode
    have h' : Linked s (L ++ []) := by rwa [append_nil]
    have hprev : s.prev s.tailNode = p := (h'.link hp rfl).2
    rw [Editor.lineNode,hprev]
    exact ⟨_,(h'.newNode env hp).1⟩
  | some now => exact ⟨L,h⟩

/-- A read of `loadFile` adds lines at the end. -/
theorem Linked.loadLoop (env : Env) (h : Linked s L) (buf : List UInt8) (oob : UInt8) (len fuel start : ℕ)
    (scan : Option ℕ) : ∃ L', Linked (loadLoop env buf oob len fuel start s scan).1 L' := by
  induction fuel generalizing s L start scan with
  | zero => exact ⟨L,h⟩
  | succ fuel ih =>
    rw [loadLoop]
    split
    next =>
      obtain ⟨L',h'⟩ := h.lineNode env scan
      exact ih (h'.setContent _ _) _ _
    next => exact ⟨L,h⟩

theorem Linked.loadReads (env : Env) (h : Linked s L) (oob : UInt8) (reads : List (List UInt8))
    (buf : List UInt8) (scan : Option ℕ) :
    ∃ L', Linked (loadReads env oob reads buf s scan) L' := by
  induction reads generalizing s L buf scan with
  | nil => exact ⟨L,h⟩
  | cons read reads ih =>
    obtain ⟨L',h'⟩ := h.loadLoop env (read ++ buf.drop read.length) oob read.length
      read.length 0 scan
    exact ih h' _ _

end Xv6.Editor
