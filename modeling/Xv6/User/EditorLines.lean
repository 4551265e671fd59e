import Mathlib.Algebra.Order.BigOperators.Group.List
import Mathlib.Algebra.Order.Group.Nat
import Xv6.Fs.Format
import Xv6.User.EditorList

/-! # The commands on the list of lines

`ins`, `mod`, `del` and `cut` as operations on the lines, and what `saveFile` writes. -/
namespace Xv6.Editor
open List hiding Chain
open Function Links

/-- `idx2Str` divides by zero at the multiples of 10000. -/
def Printable (idx : ℤ) : Prop := idx % 10000 ≠ 0

instance (idx : ℤ) : Decidable (Printable idx) := inferInstanceAs (Decidable (idx % 10000 ≠ 0))

def State.lines (s : State) (L : List ℕ) : List (List UInt8) := L.map s.content

/-- The text is `ls`, and the cursor fits to it. -/
def Holds (s : State) (ls : List (List UInt8)) : Prop :=
  ∃ L, Linked s L ∧ Cursor s L ∧ s.lines L = ls

/-- The lines from `i` to `j` moved behind the line `t`. -/
def moveAfter (ls : List (List UInt8)) (i j t : ℕ) : List (List UInt8) :=
  let rest := ls.take (i - 1) ++ ls.drop j
  let p := if t < i then t else t - (j + 1 - i)
  rest.take p ++ ((ls.take j).drop (i - 1) ++ rest.drop p)

variable {s s' : State} {L L₁ L₂ : List ℕ} {env : Env} {args : List UInt8}

theorem idx2Str_isSome {idx : ℤ} (h : Printable idx) : (idx2Str idx).isSome := by
  unfold idx2Str
  split
  · rw [Option.isSome_map]
    simp only [idxMod]
    rw [if_neg (by decide),if_neg h]
    rfl
  · rfl

theorem str2IdxLoop_digit {str : List UInt8} {i d : ℕ} (hd : d < 10)
    (hbyte : byteAt str i = .ofNat (48 + d)) (fuel : ℕ) (idx : ℤ) :
    str2IdxLoop str (fuel + 1) i idx = str2IdxLoop str fuel (i + 1) (idx * 10 + d) := by
  have hdigit : ∀ d : Fin 10, isEnd (.ofNat (48 + d)) = false ∧
      48 ≤ UInt8.ofNat (48 + d) ∧ UInt8.ofNat (48 + d) ≤ 57 ∧
      ((UInt8.ofNat (48 + d)).toNat - 48 : ℤ) = d := by decide
  obtain ⟨hend,hlo,hhi,hval⟩ := hdigit ⟨d,hd⟩
  rw [str2IdxLoop,hbyte]
  simp only [hend,hlo,hhi,hval,and_self,if_true,Bool.false_eq_true,if_false]

/-- The bytes before the first blank, newline or NUL. -/
def token (str : List UInt8) : List UInt8 := str.takeWhile fun c => !isEnd c

def isDigit (c : UInt8) : Bool := 48 ≤ c ∧ c ≤ 57

/-- The number that at most `LINE_IDX_SPACE` digits denote, and -1 for any other token. -/
def lineNumber (t : List UInt8) : ℤ :=
  if t.length ≤ LINE_IDX_SPACE ∧ t.all isDigit then
    t.foldl (fun idx c => idx * 10 + (c.toNat - 48 : ℤ)) 0
  else -1

/-- What a byte of the token does to `idx`. -/
def addDigit (idx : ℤ) (c : UInt8) : ℤ :=
  if 48 ≤ c ∧ c ≤ 57 then idx * 10 + (c.toNat - 48 : ℤ) else idx

theorem str2IdxLoop_eq (str : List UInt8) (fuel i : ℕ) (idx : ℤ) :
    str2IdxLoop str fuel i idx = if (token (str.drop i)).length ≤ fuel then
      (token (str.drop i)).foldl addDigit idx else -1 := by
  have hbyte (i : ℕ) : byteAt str i = (str.drop i).headD 0 := by simp [byteAt]
  have htail (i : ℕ) : str.drop (i + 1) = (str.drop i).tail := by simp
  induction fuel generalizing i idx with
  | zero =>
    rw [str2IdxLoop,hbyte]
    cases str.drop i with
    | nil => rfl
    | cons c l => by_cases hc : isEnd c <;> simp [token,hc]
  | succ fuel ih =>
    rw [str2IdxLoop,ih,hbyte,htail]
    cases str.drop i with
    | nil => rfl
    | cons c l => by_cases hc : isEnd c <;> simp [token,hc,addDigit]

theorem foldl_addDigit_nonneg (t : List UInt8) {idx : ℤ} (h : 0 ≤ idx) : 0 ≤ t.foldl addDigit idx := by
  induction t generalizing idx with
  | nil => exact h
  | cons c t ih =>
    refine ih ?_
    unfold addDigit
    split
    next hc =>
      have : 48 ≤ c.toNat := UInt8.le_iff_toNat_le.1 hc.1
      omega
    next => exact h

/-- `str2Idx` reads the number of the first token, but it skips what is not a digit. -/
theorem str2Idx_eq_iff (str : List UInt8) : str2Idx str = lineNumber (token str) ↔
    LINE_IDX_SPACE < (token str).length ∨ (token str).all isDigit := by
  rw [str2Idx,str2IdxLoop_eq,drop_zero,lineNumber]
  by_cases hlen : (token str).length ≤ LINE_IDX_SPACE
  · rw [if_pos hlen,or_iff_right hlen.not_gt]
    by_cases hall : (token str).all isDigit
    · rw [if_pos ⟨hlen,hall⟩]
      exact iff_of_true (foldl_ext _ _ _ fun idx c hc =>
        if_pos (of_decide_eq_true (all_eq_true.1 hall c hc))) hall
    · rw [if_neg fun h => hall h.2]
      have := foldl_addDigit_nonneg (token str) le_rfl
      exact iff_of_false (by omega) hall
  · rw [if_neg hlen,if_neg fun h => hlen h.1]
    exact iff_of_true rfl (.inl (not_le.1 hlen))

/-- For `-2` it returns 2, and for `1a2` it returns 12. -/
theorem str2Idx_skips : str2Idx [45, 50] = 2 ∧ lineNumber (token [45, 50]) = -1 ∧
    str2Idx [49, 97, 50] = 12 ∧ lineNumber (token [49, 97, 50]) = -1 := by decide

/-- The four digits of a line number below 10000, and a blank. -/
def idxBytes (n : ℕ) : List UInt8 :=
  [.ofNat (48 + n / 1000 % 10), .ofNat (48 + n / 100 % 10), .ofNat (48 + n / 10 % 10),
    .ofNat (48 + n % 10), 32]

theorem str2Idx_idxBytes {n : ℕ} (h : n < 10000) (rest : List UInt8) :
    str2Idx (idxBytes n ++ rest) = n := by
  rw [str2Idx,LINE_IDX_SPACE,str2IdxLoop_digit (Nat.mod_lt _ (by decide)) rfl,
    str2IdxLoop_digit (Nat.mod_lt _ (by decide)) rfl,
    str2IdxLoop_digit (Nat.mod_lt _ (by decide)) rfl,
    str2IdxLoop_digit (Nat.mod_lt _ (by decide)) rfl,str2IdxLoop]
  change (((0 * 10 + (n / 1000 % 10 : ℕ)) * 10 + (n / 100 % 10 : ℕ)) * 10 + (n / 10 % 10 : ℕ)) * 10 +
    (n % 10 : ℕ) = (n : ℤ)
  omega

theorem idx2Str_digits {n : ℕ} (hn : 1 ≤ n) (h : n < 10000) :
    idx2Str n = some ((idxBytes n).map fun b => (b.toNat : ℤ)) := by
  have hbyte : ∀ d : ℕ, ((UInt8.ofNat (48 + d % 10)).toNat : ℤ) = 48 + (d % 10 : ℕ) := by
    intro d
    rw [UInt8.toNat_ofNat',Nat.mod_eq_of_lt (by omega)]
    omega
  have hmod : idxMod n 6 10000 = some 10000 := by
    rw [idxMod,if_neg (by decide),if_neg (by omega)]
  simp only [idx2Str,if_pos (show (n : ℤ) ≠ -1 by omega),hmod,Option.map_some,idxBytes,
    map_cons,map_nil,hbyte]
  simp [idxDigits,LINE_IDX_SPACE]

theorem lines_append (s : State) (L₁ L₂ : List ℕ) : s.lines (L₁ ++ L₂) = s.lines L₁ ++ s.lines L₂ :=
  map_append

theorem length_lines (s : State) (L : List ℕ) : (s.lines L).length = L.length := length_map _

theorem lines_congr (h : ∀ a ∈ L, s'.content a = s.content a) : s'.lines L = s.lines L :=
  map_congr_left h

theorem getElem?_eq_nodeAt (s : State) {k : ℕ} (hk : k < L.length) :
    L[k]? = some (s.nodeAt L (k + 1)) := by
  rw [State.nodeAt,State.path,getD_cons_succ,getD_append _ _ _ _ hk,
    getD_eq_getElem _ _ hk,getElem?_eq_getElem hk]

theorem take_append (L : List ℕ) {j k : ℕ} (h : j ≤ k) :
    L.take j ++ (L.take k).drop j = L.take k := by
  have := take_append_drop j (L.take k)
  rwa [take_take,Nat.min_eq_left h] at this

theorem drop_append (L : List ℕ) {j k : ℕ} (h : j ≤ k) :
    (L.take k).drop j ++ L.drop k = L.drop j := by
  refine append_cancel_left (?_ : L.take j ++ _ = L.take j ++ _)
  rw [← append_assoc,take_append L h,take_append_drop,take_append_drop]

/-- The last of the lines before `k`, from `j` on. -/
theorem getLast?_part (s : State) {j k : ℕ} (hjk : j < k) (hk : k ≤ L.length) :
    ((L.take k).drop j).getLast? = some (s.nodeAt L k) := by
  obtain ⟨k,rfl⟩ : ∃ i, k = i + 1 := ⟨k - 1,by omega⟩
  rw [getLast?_drop,length_take_of_le hk,if_neg (by omega),getLast?_take,
    if_neg (by omega),Nat.add_sub_cancel,getElem?_eq_nodeAt s (by omega),Option.some_or]

theorem split_block (s : State) {j k : ℕ} (hj : 1 ≤ j) (hjk : j ≤ k) (hk : k ≤ L.length) :
    ∃ A B C, L = A ++ (B ++ C) ∧ B.head? = some (s.nodeAt L j) ∧
      B.getLast? = some (s.nodeAt L k) ∧ A.length + 1 = j ∧ A.length + B.length = k ∧
      A = L.take (j - 1) ∧ C = L.drop k := by
  obtain ⟨j,rfl⟩ : ∃ i, j = i + 1 := ⟨j - 1,by omega⟩
  refine ⟨L.take j,(L.take k).drop j,L.drop k,?_,?_,getLast?_part s hjk hk,?_,?_,rfl,rfl⟩
  · rw [drop_append L (by omega),take_append_drop]
  · rw [head?_drop,getElem?_take_of_lt (by omega),getElem?_eq_nodeAt s (by omega)]
  · rw [length_take_of_le (by omega)]
  · rw [length_take_of_le (by omega),length_drop,length_take_of_le hk]
    omega

theorem lines_halves (s : State) {k : ℕ} (hL : L = L₁ ++ L₂) (hlen : L₁.length = k) :
    (s.lines L).take k = s.lines L₁ ∧ (s.lines L).drop k = s.lines L₂ := by
  have hlen' : (s.lines L₁).length = k := by rw [length_lines,hlen]
  rw [hL,lines_append]
  exact ⟨take_left' hlen',drop_left' hlen'⟩

theorem lines_split (s : State) {A B C : List ℕ} {j k : ℕ} (hL : L = A ++ (B ++ C))
    (hA : A.length = j) (hB : A.length + B.length = k) :
    (s.lines L).take j = s.lines A ∧ (s.lines L).drop k = s.lines C ∧
      ((s.lines L).take k).drop j = s.lines B := by
  obtain ⟨htake,hdrop⟩ := lines_halves s
    (show L = (A ++ B) ++ C by rw [hL,append_assoc]) (by rw [length_append,hB])
  refine ⟨(lines_halves s hL hA).1,hdrop,?_⟩
  rw [htake]
  exact (lines_halves s rfl hA).2

theorem Linked.setContent (h : Linked s L) (node : ℕ) (str : List UInt8) :
    Linked (s.setContent node str) L :=
  ⟨h.chain,h.nodup,h.used,h.count⟩

/-- A new line in the place of a node. -/
theorem Linked.setLine {x : ℕ} (h : Linked s' (L₁ ++ x :: L₂))
    (hc : ∀ a ∈ L₁ ++ L₂, s'.content a = s.content a) (str : List UInt8) :
    (s'.setContent x str).lines (L₁ ++ x :: L₂) = s.lines L₁ ++ str :: s.lines L₂ := by
  have hnodup : (L₁ ++ x :: L₂).Nodup :=
    (nodup_append.1 (nodup_cons.1 h.nodup).2).1
  obtain ⟨hx,-⟩ := nodup_cons.1 (nodup_middle.1 hnodup)
  have hsame : ∀ a ∈ L₁ ++ L₂, (s'.setContent x str).content a = s.content a := fun a ha =>
    (update_of_ne (ne_of_mem_of_not_mem ha hx) _ _).trans (hc a ha)
  have hself : (s'.setContent x str).content x = str := update_self ..
  rw [lines_append,State.lines,State.lines,map_cons,hself]
  congr 1
  · exact lines_congr fun a ha => hsame a (mem_append_left _ ha)
  · exact congrArg (str :: ·) (lines_congr fun a ha => hsame a (mem_append_right _ ha))

theorem Linked.insPrev {k : ℕ} (h : Linked s L) (hc : Cursor s L) (hk : k ≤ L.length) :
    ∃ p L₁ L₂, Editor.insPrev s k = some p ∧
      L = L₁ ++ L₂ ∧ (s.headNode :: L₁).getLast? = some p ∧ p ≠ 0 ∧ L₁.length = k := by
  rcases Nat.eq_zero_or_pos k with rfl | hpos
  · exact ⟨s.headNode,[],L,by simp [Editor.insPrev],rfl,rfl,
      (h.used _ (by simp [State.path])).2,rfl⟩
  · obtain ⟨A,B,C,hL,-,hlast,-,hlen,-⟩ := split_block s hpos (Nat.le_refl k) hk
    refine ⟨s.nodeAt L k,A ++ B,C,?_,by rw [hL,append_assoc],?_,
      h.nodeAt_ne_zero (by omega),by rw [length_append,hlen]⟩
    · rw [Editor.insPrev,if_neg (by omega),h.findNode hc hpos hk]
    · rw [← cons_append,getLast?_append,hlast,Option.some_or]

theorem Linked.ins {k : ℕ} (h : Linked s L) (hc : Cursor s L) (hk : k ≤ L.length)
    (hprint : Printable (k + 1)) (text : List UInt8) : ∃ s', Editor.ins env s k text = some s' ∧
      Holds s' ((s.lines L).take k ++ textOf text :: (s.lines L).drop k) := by
  obtain ⟨p,L₁,L₂,hprev,rfl,hp,hp0,hlen⟩ := h.insPrev hc hk
  obtain ⟨str,hstr⟩ := Option.isSome_iff_exists.1 (idx2Str_isSome hprint)
  obtain ⟨hnew,hrew,hcont⟩ := h.newNode env hp
  obtain ⟨htake,hdrop⟩ := lines_halves s rfl hlen
  refine ⟨_,?_,_,hnew.setContent (Editor.newNode env s p).2 (textOf text),hrew.cursor _,?_⟩
  · simp [Editor.ins,hprev,hp0,hstr]
  · rw [hnew.setLine (fun a ha => hcont a (mem_path ha)),htake,hdrop]

theorem Linked.mod {k : ℕ} (h : Linked s L) (hc : Cursor s L) (hk : 1 ≤ k) (hk' : k ≤ L.length)
    (hprint : Printable k) (text : List UInt8) : ∃ s', Editor.mod env s k text = some s' ∧
      Holds s' ((s.lines L).take (k - 1) ++ textOf text :: (s.lines L).drop k) := by
  obtain ⟨str,hstr⟩ := Option.isSome_iff_exists.1 (idx2Str_isSome hprint)
  obtain ⟨A,B,C,hL,hx,-,hA,hB,-⟩ := split_block s hk (Nat.le_refl k) hk'
  obtain ⟨b,rfl⟩ := length_eq_one_iff.1 (show B.length = 1 by omega)
  obtain rfl : b = s.nodeAt L k := Option.some.inj hx
  obtain ⟨htake,hdrop,-⟩ := lines_split s hL (show A.length = k - 1 by omega) hB
  have hfind := h.findNode hc hk hk'
  have hx0 : s.nodeAt L k ≠ 0 := h.nodeAt_ne_zero (by omega)
  generalize s.nodeAt L k = x at *
  subst hL
  replace h : Linked s (A ++ x :: C) := h
  obtain ⟨p,hp⟩ := exists_last A s.headNode
  obtain ⟨hnext,hprev⟩ := h.link hp rfl
  have hp0 : p ≠ 0 := by
    refine (h.used p ?_).2
    rw [path_append]
    exact mem_append_left _ (mem_of_getLast? hp)
  obtain ⟨hdel,hrew,-,hcont⟩ := h.deleteNode
  rw [← hrew.head] at hp
  obtain ⟨hnew,hrew',hcont'⟩ := hdel.newNode env hp
  refine ⟨_,?_,_,hnew.setContent (Editor.newNode env (Editor.deleteNode s x).1 p).2
    (textOf text),hrew'.cursor _,?_⟩
  · have hk0 : (k : ℤ) ≠ 0 := by omega
    simp only [Editor.mod,if_neg hk0,hfind,Option.bind_eq_bind,Option.bind_some,if_neg hx0,
      hprev,if_neg hp0,hnext,hstr]
    rfl
  · rw [hnew.setLine fun a ha => (hcont' a (mem_path ha)).trans (hcont a ha),htake,hdrop]

theorem Linked.freeList {j k : ℕ} (h : Linked s L) (hj : 1 ≤ j) (hjk : j ≤ k) (hk : k ≤ L.length) :
    ∃ s', Editor.freeList s (s.nodeAt L j) (s.nodeAt L k) = some s' ∧
      Holds s' ((s.lines L).take (j - 1) ++ (s.lines L).drop k) := by
  have hhead : s.nodeAt L j ≠ s.headNode := by
    rw [← nodeAt_zero (s := s) (L := L)]
    intro heq
    have := h.nodeAt_inj (by omega) (by omega) heq
    omega
  have htail : s.nodeAt L k ≠ s.tailNode := by
    rw [← nodeAt_tail (s := s) (L := L)]
    intro heq
    have := h.nodeAt_inj (by omega) (by omega) heq
    omega
  have hk0 : s.nodeAt L k ≠ 0 := h.nodeAt_ne_zero (by omega)
  obtain ⟨A,B,C,hL,hx,hy,hA,hB,-⟩ := split_block s hj hjk hk
  obtain ⟨htake,hdrop,-⟩ := lines_split s hL (show A.length = j - 1 by omega) hB
  rw [Editor.freeList,if_neg (by simp [hhead,htail]),if_neg hk0,htake,hdrop]
  generalize s.nodeAt L j = x at *
  generalize s.nodeAt L k = y at *
  subst hL
  obtain ⟨q,hq,-⟩ := exists_head C s.tailNode
  have hnext : s.next y = q := by
    have h' : Linked s ((A ++ B) ++ C) := by rwa [append_assoc]
    refine (h'.link ?_ hq).1
    rw [← cons_append,getLast?_append,hy,Option.some_or]
  have hfuel : B.length < s.nodes.length + 1 := by
    have := h.length_le
    simp only [length_append] at this
    omega
  obtain ⟨s',hs',hlinked,hrew,hcont⟩ := h.freeLoop hq
    (by rw [head?_append,hx,Option.some_or]) hfuel
  rw [hnext]
  refine ⟨s',hs',_,hlinked,(hrew ?_).cursor _,?_⟩
  · rintro rfl
    simp at hx
  · rw [lines_congr hcont,lines_append]

theorem Linked.del {j k : ℕ} (h : Linked s L) (hc : Cursor s L) (hr : delRange s args = some ((j : ℤ),(k : ℤ)))
    (hj : 1 ≤ j) (hjk : j ≤ k) (hk : k ≤ L.length) : ∃ s', Editor.del s args = some s' ∧
      Holds s' ((s.lines L).take (j - 1) ++ (s.lines L).drop k) := by
  simp only [Editor.del,hr]
  rw [if_pos (by omega),h.findNode hc hj (by omega),h.findNode hc (by omega) hk]
  exact h.freeList hj hjk hk

theorem getElem?_append_congr {X Y Z : List ℕ} {c : ℕ} (hlen : X.length = Y.length)
    (hc : X.length ≤ c) : (X ++ Z)[c]? = (Y ++ Z)[c]? := by
  rw [getElem?_append_right hc,getElem?_append_right (hlen ▸ hc),hlen]

/-- Outside two blocks that change places. -/
theorem path_swap (s : State) {A X Y C : List ℕ} {c : ℕ}
    (hc : c ≤ A.length ∨ A.length + X.length + Y.length < c) :
    (s.path (A ++ (X ++ (Y ++ C))))[c]? = (s.path (A ++ (Y ++ (X ++ C))))[c]? := by
  rcases hc with hc | hc
  · have hlt : c < (s.headNode :: A).length := Nat.lt_succ_of_le hc
    rw [path_append,path_append,getElem?_append_left hlt,getElem?_append_left hlt]
  · have hassoc : ∀ X Y : List ℕ, A ++ (X ++ (Y ++ C)) = (A ++ (X ++ Y)) ++ C := by simp
    have hlen : ∀ X Y : List ℕ,
        (s.headNode :: (A ++ (X ++ Y))).length = A.length + X.length + Y.length + 1 := by
      intro X Y
      simp only [length_cons,length_append]
      omega
    rw [hassoc,hassoc,path_append,path_append]
    apply getElem?_append_congr
    · rw [hlen,hlen,Nat.add_right_comm A.length]
    · rw [hlen]
      omega

/-- The lines from `j` to `k` behind the line `t`.  The lines before and behind those that change
places stay where they are. -/
theorem Linked.moved {j k t : ℕ} (h : Linked s L) (hj : 1 ≤ j) (hjk : j ≤ k)
    (hk : k ≤ L.length) (ht : 1 ≤ t) (ht' : t ≤ L.length) (hout : t < j ∨ k < t) :
    ∃ L', Linked (Editor.relink s (s.nodeAt L j) (s.nodeAt L k) (s.nodeAt L t)) L' ∧
      s.lines L' = moveAfter (s.lines L) j k t ∧
      ∀ c, t + 1 = j ∨ (c < j ∧ c ≤ t) ∨ (k < c ∧ t < c) → (s.path L')[c]? = (s.path L)[c]? := by
  obtain ⟨A,B,C,hL,hx,hy,hA,hB,hA',hC⟩ := split_block s hj hjk hk
  obtain ⟨htake,hdrop,hblock⟩ := lines_split s hL (show A.length = j - 1 by omega) hB
  have hmove : ∀ D1 D2, A ++ C = D1 ++ D2 → D1.length = (if t < j then t else t - (k + 1 - j)) →
      s.lines (D1 ++ (B ++ D2)) = moveAfter (s.lines L) j k t := by
    intro D1 D2 hD hlen
    obtain ⟨h1,h2⟩ := lines_halves s hD hlen
    rw [moveAfter,htake,hdrop,hblock,← lines_append,h1,h2,lines_append,lines_append]
  have hlen : (L.take t).length = t := length_take_of_le ht'
  rcases hout with hlt | hgt
  · have hsplit : L.take t ++ A.drop t = A := by rw [hA',take_append L (by omega)]
    have hD : A ++ C = L.take t ++ (A.drop t ++ C) := by rw [← append_assoc,hsplit]
    have hlast : (s.headNode :: L.take t).getLast? = some (s.nodeAt L t) := by
      rw [getLast?_cons,← drop_zero (l := L.take t),getLast?_part s ht ht',
        Option.getD_some]
    refine ⟨_,(hL ▸ h).relink hD hlast hx hy,hmove _ _ hD (by rw [if_pos hlt,hlen]), fun c hc => ?_⟩
    have hpath : L = L.take t ++ (A.drop t ++ (B ++ C)) := by
      rw [← append_assoc,hsplit,← hL]
    rw [congrArg s.path hpath]
    rcases hc with hc | hc
    · -- nothing moves
      rw [drop_eq_nil_of_le (by omega)]
      rfl
    · refine path_swap s ?_
      rw [hlen,length_drop]
      omega
  · have hsplit : (L.take t).drop k ++ L.drop t = C := by rw [hC,drop_append L (by omega)]
    have hD : A ++ C = (A ++ (L.take t).drop k) ++ L.drop t := by rw [append_assoc,hsplit]
    have hlast : (s.headNode :: (A ++ (L.take t).drop k)).getLast? = some (s.nodeAt L t) := by
      rw [← cons_append,getLast?_append,getLast?_part s hgt ht',Option.some_or]
    refine ⟨_,(hL ▸ h).relink hD hlast hx hy,hmove _ _ hD ?_,fun c hc => ?_⟩
    · rw [if_neg (by omega),length_append,length_drop,hlen]
      omega
    · rw [congrArg s.path hL,← hsplit,append_assoc]
      refine path_swap s ?_
      rw [length_drop,hlen]
      omega

theorem Linked.cut {j k t : ℕ} (h : Linked s L) (hc : Cursor s L)
    (hr : cutRange args = some ((j : ℤ),(k : ℤ),(t : ℤ))) (hj : 1 ≤ j) (hjk : j ≤ k) (hk : k ≤ L.length)
    (ht : 1 ≤ t) (ht' : t ≤ L.length) (hout : t < j ∨ k < t) :
    ∃ s' L', Editor.cut s args = some s' ∧ Linked s' L' ∧
      s'.lines L' = moveAfter (s.lines L) j k t ∧
      ∀ c : ℕ, s.currentLine = c → t + 1 = j ∨ (c < j ∧ c ≤ t) ∨ (k < c ∧ t < c) →
        Cursor s' L' := by
  obtain ⟨L',h',hlines,hpath⟩ := h.moved hj hjk hk ht ht' hout
  refine ⟨_,L',?_,h',hlines,fun c hline hsafe => ⟨c,hline,?_⟩⟩
  · simp only [Editor.cut,hr]
    rw [if_pos (by omega),h.findNode hc hj (by omega),h.findNode hc (by omega) hk,
      h.findNode hc ht ht']
    have hj0 : s.nodeAt L j ≠ 0 := h.nodeAt_ne_zero (by omega)
    have hk0 : s.nodeAt L k ≠ 0 := h.nodeAt_ne_zero (by omega)
    have ht0 : s.nodeAt L t ≠ 0 := h.nodeAt_ne_zero (by omega)
    simp only [Option.bind_eq_bind,Option.bind_some,hj0,hk0,ht0,or_self,if_false]
    rfl
  · obtain ⟨i,hi,hget⟩ := hc
    obtain rfl : i = c := by omega
    exact (hpath i hsafe).trans hget

theorem linked_initList (env : Env) : Linked (initList env) [] := by
  have hne : env.alloc [env.alloc []] ≠ env.alloc [] := fun heq =>
    env.fresh [env.alloc []] (by simp [heq])
  refine ⟨?_,?_,?_,rfl⟩
  · simp [initList,State.path,Chain,Link,hne.symm]
  · simp [initList,State.path,hne]
  · simp [initList,State.path,env.ne_null]

/-- An environment whose `malloc` picks a new address. -/
def sumEnv : Env where
  alloc nodes := nodes.sum + 1
  fresh nodes hmem := by
    have := single_le_sum (fun _ _ => Nat.zero_le _) _ hmem
    omega
  ne_null nodes := by omega
  opens := true

theorem Linked.first (h : Linked s L) : s.next s.headNode = s.nodeAt L 1 :=
  (h.next_nodeAt (i := 0) (by omega)).1

def emptyDoc : State := load sumEnv 0 []

theorem linked_emptyDoc : Linked emptyDoc [] ∧ Cursor emptyDoc [] := by
  have h := linked_initList sumEnv
  refine ⟨⟨h.chain,h.nodup,h.used,h.count⟩,1,rfl,?_⟩
  exact (nodeAt_eq (by simp)).trans (congrArg some h.first.symm)

/-- Documents of every length. -/
theorem exists_document (n : ℕ) : ∃ s L, Linked s L ∧ Cursor s L ∧ L.length = n := by
  induction n with
  | zero => exact ⟨emptyDoc,[],linked_emptyDoc.1,linked_emptyDoc.2,rfl⟩
  | succ n ih =>
    obtain ⟨s,L,h,hc,hlen⟩ := ih
    have hprint : Printable ((0 : ℕ) + 1) := by decide
    obtain ⟨s',-,L',h',hc',hlines⟩ :
        ∃ s', Editor.ins sumEnv s (0 : ℕ) [] = some s' ∧ Holds s' _ :=
      h.ins hc (Nat.zero_le _) hprint []
    refine ⟨s',L',h',hc',?_⟩
    have := congrArg length hlines
    simpa [length_lines,hlen] using this

/-- The command is refused by its own tests: a number that cannot be read, a line behind the last
one for `ins`, a range that is empty, or a target inside the range. -/
def Refused (s : State) (args : List UInt8) : Name → Prop
  | .insAt => str2Idx args = -1 ∨ s.fileLineNum < str2Idx args
  | .modAt => str2Idx args = -1
  | .d => ∀ r ∈ delRange s args, r.2 < r.1
  | .c => ∀ r ∈ cutRange args, r.2.1 < r.1 ∨ r.1 ≤ r.2.2 ∧ r.2.2 ≤ r.2.1
  | _ => False

theorem del_refused (hr : ∀ r ∈ delRange s args, r.2 < r.1) : del s args = some s := by
  unfold del
  split
  next => rfl
  next idx1 idx2 hrange => exact if_neg (Int.not_le.2 (hr _ hrange))

theorem cut_refused (hr : ∀ r ∈ cutRange args, r.2.1 < r.1 ∨ r.1 ≤ r.2.2 ∧ r.2.2 ≤ r.2.1) :
    cut s args = some s := by
  unfold cut
  split
  next => rfl
  next idx1 idx2 tar hrange =>
    have := hr _ hrange
    dsimp only at this
    exact if_neg (by omega)

end Xv6.Editor
