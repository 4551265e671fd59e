import Mathlib.Computability.Language

/-! # `grep.c`

The matcher against the languages of the patterns, and the loop of `grep` over the pieces that
`read` returns.  A string is the list of the bytes before its NUL. -/
namespace Xv6.Grep
open List

/-- The loop of `matchstar`, where `here` is `matchhere` with the rest of the pattern. -/
def matchstar (c : UInt8) (here : List UInt8 → Bool) : List UInt8 → Bool
  | [] => here []
  | t :: text => here (t :: text) || ((t == c || c == '.'.toUInt8) && matchstar c here text)

/-- `*text!='\0' && (re[0]=='.' || re[0]==*text)`, and then `matchhere(re+1, text+1)`. -/
def matchone (c : UInt8) (here : List UInt8 → Bool) : List UInt8 → Bool
  | [] => false
  | t :: text => (c == '.'.toUInt8 || c == t) && here text

def matchhere : List UInt8 → List UInt8 → Bool
  | [], _ => true
  | [c], text => if c = '$'.toUInt8 then text.isEmpty else matchone c (fun _ => true) text
  | c :: d :: re, text =>
    if d = '*'.toUInt8 then matchstar c (matchhere re) text
    else matchone c (matchhere (d :: re)) text

/-- The loop of `match`. -/
def matchany (here : List UInt8 → Bool) : List UInt8 → Bool
  | [] => here []
  | t :: text => here (t :: text) || matchany here text

/-- `match(re, text)` -/
def matchRe (re text : List UInt8) : Bool :=
  if re.head? = some '^'.toUInt8 then matchhere re.tail text else matchany (matchhere re) text

/-- What a character of the pattern stands for. -/
def one (c : UInt8) : Language UInt8 := {w | ∃ t, w = [t] ∧ (c = '.'.toUInt8 ∨ c = t)}

/-- The language of a pattern, without the `$` at its end. -/
noncomputable def lang : List UInt8 → Language UInt8
  | [] => 1
  | [c] => if c = '$'.toUInt8 then 1 else one c
  | c :: d :: re => if d = '*'.toUInt8 then KStar.kstar (one c) * lang re else one c * lang (d :: re)

/-- The pattern ends with the `$` of the end of the text. -/
def atEnd : List UInt8 → Bool
  | [] => false
  | [c] => c = '$'.toUInt8
  | _ :: d :: re => if d = '*'.toUInt8 then atEnd re else atEnd (d :: re)

/-- A word of the pattern starts the text. -/
def Here (re text : List UInt8) : Prop :=
  ∃ w v, w ++ v = text ∧ w ∈ lang re ∧ (atEnd re → v = [])

theorem mem_kstar_one {c : UInt8} {w : List UInt8} :
    w ∈ KStar.kstar (one c) ↔ ∀ t ∈ w, c = '.'.toUInt8 ∨ c = t := by
  rw [Language.mem_kstar]
  constructor
  · rintro ⟨L,rfl,hL⟩ t ht
    obtain ⟨y,hy,ht⟩ := mem_flatten.1 ht
    obtain ⟨t',rfl,h⟩ := hL y hy
    rwa [mem_singleton.1 ht]
  · intro h
    refine ⟨w.map ([·]),(flatMap_singleton' w).symm,fun y hy => ?_⟩
    obtain ⟨t,ht,rfl⟩ := mem_map.1 hy
    exact ⟨t,rfl,h t ht⟩

theorem matchstar_iff {c : UInt8} {here : List UInt8 → Bool} {text : List UInt8} :
    matchstar c here text ↔ ∃ u v, u ++ v = text ∧ (∀ t ∈ u, c = '.'.toUInt8 ∨ c = t) ∧ here v := by
  induction text with
  | nil => simp [matchstar]
  | cons t text ih =>
    simp only [matchstar,Bool.or_eq_true,Bool.and_eq_true,ih,beq_iff_eq]
    constructor
    · rintro (h | ⟨ht,u,v,rfl,hu,hv⟩)
      · exact ⟨[],_,rfl,by simp,h⟩
      · refine ⟨t :: u,v,rfl,?_,hv⟩
        rw [forall_mem_cons]
        exact ⟨ht.symm.imp id Eq.symm,hu⟩
    · rintro ⟨u,v,huv,hu,hv⟩
      cases u with
      | nil => exact .inl (huv ▸ hv)
      | cons t' u =>
        obtain ⟨rfl,rfl⟩ := List.cons.inj huv
        rw [forall_mem_cons] at hu
        exact .inr ⟨(hu.1.imp id Eq.symm).symm,u,v,rfl,hu.2,hv⟩

theorem matchone_iff {c : UInt8} {here : List UInt8 → Bool} {text : List UInt8} :
    matchone c here text ↔ ∃ u v, u ++ v = text ∧ u ∈ one c ∧ here v := by
  constructor
  · intro h
    cases text with
    | nil => cases h
    | cons t text =>
      simp only [matchone,Bool.and_eq_true,Bool.or_eq_true,beq_iff_eq] at h
      exact ⟨[t],text,rfl,⟨t,rfl,h.1⟩,h.2⟩
  · rintro ⟨u,v,rfl,⟨t,rfl,ht⟩,hv⟩
    simpa [matchone,hv] using ht

/-- A word of a product, in front of the rest of the text. -/
theorem exists_mul {K L : Language UInt8} {text : List UInt8} {P : List UInt8 → Prop} :
    (∃ w v, w ++ v = text ∧ w ∈ K * L ∧ P v) ↔
      ∃ u v, u ++ v = text ∧ u ∈ K ∧ ∃ w v', w ++ v' = v ∧ w ∈ L ∧ P v' := by
  constructor
  · rintro ⟨_,v,rfl,hw,hv⟩
    obtain ⟨a,ha,b,hb,rfl⟩ := Language.mem_mul.1 hw
    exact ⟨a,b ++ v,(append_assoc ..).symm,ha,b,v,rfl,hb,hv⟩
  · rintro ⟨a,_,rfl,ha,b,v,rfl,hb,hv⟩
    exact ⟨a ++ b,v,append_assoc ..,Language.mem_mul.2 ⟨a,ha,b,hb,rfl⟩,hv⟩

theorem matchhere_iff (re text : List UInt8) : matchhere re text ↔ Here re text := by
  induction re using atEnd.induct generalizing text with
  | case1 => simp [matchhere,Here,lang,atEnd,Language.mem_one]
  | case2 c =>
    by_cases hc : c = '$'.toUInt8
    · simp [matchhere,Here,lang,atEnd,Language.mem_one,hc]
    · simp [matchhere,matchone_iff,Here,lang,atEnd,hc]
  | case3 c re ih =>
    simp only [matchhere,Here,lang,atEnd,if_true,exists_mul,mem_kstar_one,matchstar_iff,ih]
  | case4 c d re hd ih =>
    simp only [matchhere,Here,lang,atEnd,if_neg hd,exists_mul,matchone_iff,ih]

theorem matchany_iff {here : List UInt8 → Bool} {text : List UInt8} :
    matchany here text ↔ ∃ u v, u ++ v = text ∧ here v := by
  induction text with
  | nil => simp [matchany]
  | cons t text ih =>
    simp only [matchany,Bool.or_eq_true,ih]
    constructor
    · rintro (h | ⟨u,v,rfl,h⟩)
      · exact ⟨[],_,rfl,h⟩
      · exact ⟨t :: u,v,rfl,h⟩
    · rintro ⟨u,v,huv,h⟩
      cases u with
      | nil => exact .inl (huv ▸ h)
      | cons t' u => exact .inr ⟨u,v,(List.cons.inj huv).2,h⟩

/-- `match` finds the words of the pattern in the text. -/
theorem match_finds_language (re text : List UInt8) : matchRe re text ↔
      if re.head? = some '^'.toUInt8 then
        ∃ w v, w ++ v = text ∧ w ∈ lang re.tail ∧ (atEnd re.tail → v = [])
      else ∃ u w v, u ++ (w ++ v) = text ∧ w ∈ lang re ∧ (atEnd re → v = []) := by
  unfold matchRe
  split
  · exact matchhere_iff _ _
  · rw [matchany_iff]
    simp only [matchhere_iff]
    constructor
    · rintro ⟨u,_,rfl,w,v,rfl,h⟩
      exact ⟨u,w,v,rfl,h⟩
    · rintro ⟨u,w,v,rfl,h⟩
      exact ⟨u,_,rfl,w,v,rfl,h⟩

section Loop

def newline : UInt8 := 10

def bufSize : ℕ := 1024

variable (pattern : List UInt8)

/-- The inner loop of `grep`, in `strchr` behind the bytes `line`: what it writes, and what is left
of the buffer from `p` on. -/
def scan : List UInt8 → List UInt8 → List UInt8 × List UInt8
  | line, [] => ([],line)
  | line, c :: buf =>
    if c = newline then
      let r := scan [] buf
      (if matchRe pattern line then line ++ newline :: r.1 else r.1,r.2)
    else scan (line ++ [c]) buf

/-- What `grep` writes for a piece behind `buf`, and what it keeps: nothing if `p == buf`. -/
def round (buf piece : List UInt8) : List UInt8 × List UInt8 :=
  let r := scan pattern [] (buf ++ piece)
  (r.1,if r.2.length = (buf ++ piece).length then [] else r.2)

/-- What `grep` writes for the pieces that `read` returns.  There is no such run when `read` was not
asked for so many bytes. -/
def grep : List UInt8 → List (List UInt8) → Option (List UInt8)
  | _, [] => some []
  | buf, piece :: pieces =>
    if piece ≠ [] ∧ piece.length ≤ bufSize - buf.length - 1 then
      (grep (round pattern buf piece).2 pieces).map ((round pattern buf piece).1 ++ ·)
    else none

def text (ls : List (List UInt8)) : List UInt8 := ls.flatMap (· ++ [newline])

variable {ls : List (List UInt8)}

@[simp]
theorem text_cons (l : List UInt8) : text (l :: ls) = l ++ newline :: text ls := by
  simp [text]

theorem text_append (ls ls' : List (List UInt8)) : text (ls ++ ls') = text ls ++ text ls' :=
  flatMap_append

theorem text_eq_nil (h : newline ∉ text ls) : ls = [] := by
  cases ls with
  | nil => rfl
  | cons l ls => simp at h

/-- The first line of a text ends with the first newline. -/
theorem text_split {line rest : List UInt8} (hline : newline ∉ line)
    (hls : ∀ l ∈ ls, newline ∉ l) (h : text ls = line ++ newline :: rest) :
    ∃ ls', ls = line :: ls' ∧ text ls' = rest := by
  cases ls with
  | nil => simp [text] at h
  | cons l ls =>
    rw [text_cons] at h
    have hl := hls l mem_cons_self
    rcases append_eq_append_iff.1 h with ⟨c,rfl,hc⟩ | ⟨c,rfl,hc⟩ <;> cases c <;> simp_all

/-- `scan` writes the matching ones of the lines that end in the buffer, and leaves the rest. -/
theorem scan_spec (hls : ∀ l ∈ ls, newline ∉ l) {line buf more : List UInt8}
    (hline : newline ∉ line) (h : text ls = line ++ (buf ++ more)) : ∃ pre post, ls = pre ++ post ∧
      (scan pattern line buf).1 = text (pre.filter (matchRe pattern)) ∧
      text post = (scan pattern line buf).2 ++ more ∧ newline ∉ (scan pattern line buf).2 := by
  induction buf generalizing line ls with
  | nil => exact ⟨[],ls,rfl,rfl,h,hline⟩
  | cons c buf ih =>
    by_cases hc : c = newline
    · subst hc
      obtain ⟨ls,rfl,hrest⟩ := text_split hline hls h
      obtain ⟨pre,post,rfl,hout,hpost,hnew⟩ :=
        ih (fun l hl => hls l (mem_cons_of_mem _ hl)) not_mem_nil hrest
      refine ⟨line :: pre,post,rfl,?_,?_⟩
      · by_cases hm : matchRe pattern line <;> simp [scan,hm,hout]
      · simpa [scan] using ⟨hpost,hnew⟩
    · rw [scan,if_neg hc]
      exact ih hls (by simp [hline,Ne.symm hc]) (by simpa using h)

/-- A piece with a newline leaves no more than the part of a line. -/
theorem round_spec (hls : ∀ l ∈ ls, newline ∉ l) {buf piece more : List UInt8}
    (hpiece : newline ∈ piece) (h : text ls = buf ++ (piece ++ more)) :
    ∃ pre post, ls = pre ++ post ∧
      (round pattern buf piece).1 = text (pre.filter (matchRe pattern)) ∧
      text post = (round pattern buf piece).2 ++ more ∧ newline ∉ (round pattern buf piece).2 := by
  obtain ⟨pre,post,rfl,hout,hpost,hnew⟩ := scan_spec pattern hls not_mem_nil
    (show text ls = [] ++ ((buf ++ piece) ++ more) by rw [h,append_assoc]; rfl)
  refine ⟨pre,post,rfl,hout,?_⟩
  rw [round,if_neg]
  · exact ⟨hpost,hnew⟩
  · -- no line would have ended, with the newline still in the buffer
    intro hlen
    rw [text_append,hpost,← append_assoc,← append_assoc, append_cancel_right_eq] at h
    have hnil : text pre = [] := by
      have := congrArg List.length h
      rw [length_append,hlen] at this
      exact length_eq_zero_iff.1 (by omega)
    rw [hnil,nil_append] at h
    refine hnew ?_
    rw [h]
    exact mem_append_right _ hpiece

theorem grep_spec (hls : ∀ l ∈ ls, newline ∉ l) {buf : List UInt8} {pieces : List (List UInt8)}
    (hbuf : newline ∉ buf) (hpieces : ∀ piece ∈ pieces, newline ∈ piece)
    (h : text ls = buf ++ pieces.flatten) (hrun : (grep pattern buf pieces).isSome) :
    grep pattern buf pieces = some (text (ls.filter (matchRe pattern))) := by
  induction pieces generalizing buf ls with
  | nil =>
    have hls' : ls = [] := text_eq_nil (by simpa [h] using hbuf)
    rw [hls']
    rfl
  | cons piece pieces ih =>
    rw [forall_mem_cons] at hpieces
    rw [flatten_cons] at h
    obtain ⟨pre,post,rfl,hout,hpost,hnew⟩ := round_spec pattern hls hpieces.1 h
    rw [grep] at hrun ⊢
    split at hrun
    next hfit =>
      rw [Option.isSome_map] at hrun
      rw [if_pos hfit,ih (fun l hl => hls l (mem_append_right _ hl)) hnew hpieces.2 hpost hrun,
        hout,Option.map_some,filter_append,text_append]
    next => cases hrun

end Loop

end Xv6.Grep
